/-
# The contexts of a queue

`make_sw_context`, `make_prefetch_context` and `make_wrb_context`: the words the driver
programs for a queue.  The places of the fields are those of `qdma_regs.h`, each named after
its `S_` macro.

`contexts_lossless` reads all fields of the SW and the writeback context back.
-/
import Qdma.Setup
import Qdma.BitField

namespace Qdma

open BitField

/-! ## The SW context -/

/-- `S_DESC_CTXT_W1_F_QEN`. -/
def descCtxtW1FQen : Field := ⟨0, 1⟩

/-- `S_DESC_CTXT_W1_F_FCRD_EN`. -/
def descCtxtW1FFcrdEn : Field := ⟨1, 1⟩

/-- `S_DESC_CTXT_W1_F_WBI_CHK`. -/
def descCtxtW1FWbiChk : Field := ⟨2, 1⟩

/-- `S_DESC_CTXT_W1_F_WB_ACC_EN`. -/
def descCtxtW1FWbAccEn : Field := ⟨3, 1⟩

/-- `S_DESC_CTXT_W1_FUNC_ID`. -/
def descCtxtW1FuncId : Field := ⟨4, 8⟩

/-- `S_DESC_CTXT_W1_RNG_SZ`. -/
def descCtxtW1RngSz : Field := ⟨12, 4⟩

/-- `S_DESC_CTXT_W1_DSC_SZ`. -/
def descCtxtW1DscSz : Field := ⟨16, 2⟩

/-- `S_DESC_CTXT_W1_F_BYP`. -/
def descCtxtW1FByp : Field := ⟨18, 1⟩

/-- `S_DESC_CTXT_W1_F_MM_CHN`. -/
def descCtxtW1FMmChn : Field := ⟨19, 1⟩

/-- `S_DESC_CTXT_W1_F_WBK_EN`. -/
def descCtxtW1FWbkEn : Field := ⟨20, 1⟩

/-- `S_DESC_CTXT_W1_F_IRQ_EN`. -/
def descCtxtW1FIrqEn : Field := ⟨21, 1⟩

/-- `DESC_SZ_8B`, `DESC_SZ_16B` and `DESC_SZ_32B`. -/
def descSz8B : ℕ := 0

@[inherit_doc descSz8B]
def descSz16B : ℕ := 1

@[inherit_doc descSz8B]
def descSz32B : ℕ := 2

/-- What the contexts of a queue hold beside its configuration: the function, the channel, and
the bus addresses of its rings. -/
structure CtxtEnv where
  funcId : ℕ
  channel : ℕ := 0
  descBus : ℕ
  descWrbBus : ℕ := 0

/-- `PCI_DMA_H`. -/
def pciDmaH (addr : ℕ) : ℕ := (addr >>> 16) >>> 16

/-- `PCI_DMA_L`. -/
def pciDmaL (addr : ℕ) : ℕ := addr &&& 0xffffffff

/-- `make_sw_context`. -/
def makeSwContext (d : Descq) (e : CtxtEnv) : List ℕ :=
  let w1 := descCtxtW1FQen.put 1 |||
    descCtxtW1RngSz.put d.conf.descRngSzIdx |||
    descCtxtW1FWbAccEn.put d.conf.wbkAccEn.toNat |||
    descCtxtW1FWbiChk.put d.conf.wbkPendChk.toNat |||
    descCtxtW1FuncId.put e.funcId |||
    descCtxtW1FByp.put d.conf.bypass.toNat |||
    descCtxtW1FWbkEn.put d.conf.wbkEn.toNat |||
    descCtxtW1FIrqEn.put d.conf.irqEn.toNat
  let w1 :=
    if !d.conf.st then  -- mm h2c/c2h
      w1 ||| (descCtxtW1DscSz.put descSz32B ||| descCtxtW1FMmChn.put e.channel)
    else if d.conf.c2h then  -- st c2h
      w1 ||| (descCtxtW1FFcrdEn.put d.conf.fetchCredit.toNat ||| descCtxtW1DscSz.put descSz8B)
    else  -- st h2c
      w1 ||| descCtxtW1DscSz.put descSz16B
  [0, u32 w1, u32 (pciDmaL e.descBus), u32 (pciDmaH e.descBus)]

/-! ## The prefetch context -/

/-- `S_PFTCH_W0_F_BYPASS`. -/
def pftchW0FBypass : Field := ⟨0, 1⟩

/-- `S_PFTCH_W0_BUF_SIZE_IDX`. -/
def pftchW0BufSizeIdx : Field := ⟨1, 4⟩

/-- `S_PFTCH_W0_F_EN_PFTCH`. -/
def pftchW0FEnPftch : Field := ⟨27, 1⟩

/-- `S_PFTCH_W1_F_VALID`. -/
def pftchW1FValid : Field := ⟨13, 1⟩

/-- `make_prefetch_context`. -/
def makePrefetchContext (d : Descq) : List ℕ :=
  [if d.conf.pfetchEn then
      u32 (pftchW0FBypass.put d.conf.bypass.toNat ||| pftchW0BufSizeIdx.put d.conf.c2hBufSzIdx |||
        pftchW0FEnPftch.put d.conf.pfetchEn.toNat)
    else 0,
    pftchW1FValid.put 1]

/-! ## The writeback context -/

/-- `S_WRB_CTXT_W0_F_EN_STAT_DESC`. -/
def wrbCtxtW0FEnStatDesc : Field := ⟨0, 1⟩

/-- `S_WRB_CTXT_W0_F_EN_INT`. -/
def wrbCtxtW0FEnInt : Field := ⟨1, 1⟩

/-- `S_WRB_CTXT_W0_TRIG_MODE`. -/
def wrbCtxtW0TrigMode : Field := ⟨2, 3⟩

/-- `S_WRB_CTXT_W0_FNC_ID`. -/
def wrbCtxtW0FncId : Field := ⟨5, 8⟩

/-- `S_WRB_CTXT_W0_COUNTER_IDX`. -/
def wrbCtxtW0CounterIdx : Field := ⟨13, 4⟩

/-- `S_WRB_CTXT_W0_TIMER_IDX`. -/
def wrbCtxtW0TimerIdx : Field := ⟨17, 4⟩

/-- `S_WRB_CTXT_W0_F_COLOR`. -/
def wrbCtxtW0FColor : Field := ⟨23, 1⟩

/-- `S_WRB_CTXT_W0_RNG_SZ`. -/
def wrbCtxtW0RngSz : Field := ⟨24, 4⟩

/-- `S_WRB_CTXT_W0_BADDR_64`. -/
def wrbCtxtW0Baddr64 : Field := ⟨28, 4⟩

/-- `S_WRB_CTXT_W2_BADDR_64`. -/
def wrbCtxtW2Baddr64 : Field := ⟨0, 22⟩

/-- `S_WRB_CTXT_W2_DESC_SIZE`. -/
def wrbCtxtW2DescSize : Field := ⟨22, 2⟩

/-- `S_WRB_CTXT_W3_F_VALID`. -/
def wrbCtxtW3FValid : Field := ⟨24, 1⟩

/-- The mask of a field, its `M_` macro. -/
def mask (f : Field) : ℕ := 2 ^ f.width - 1

theorem and_mask (v : ℕ) (f : Field) : v &&& mask f = v % 2 ^ f.width :=
  Nat.and_two_pow_sub_one_eq_mod v f.width

/-- A value masked, put into a 32-bit argument and masked again. -/
theorem u32_and_mask {f : Field} (hf : f.width ≤ 32) (v : ℕ) :
    u32 (v &&& mask f) &&& mask f = v % 2 ^ f.width := by
  have hlt : v % 2 ^ f.width < 2 ^ 32 :=
    (Nat.mod_lt _ (Nat.two_pow_pos _)).trans_le (Nat.pow_le_pow_right (by decide) hf)
  rw [and_mask, and_mask, u32_of_lt hlt, Nat.mod_mod]

/-- `L_WRB_CTXT_W0_BADDR_64`. -/
def lWrbCtxtW0Baddr64 : ℕ := 4

/-- `bus_64` of `make_wrb_context`. -/
def wrbBus64 (addr : ℕ) : ℕ := (pciDmaH addr <<< 26) ||| (pciDmaL addr >>> 6)

/-- `make_wrb_context`. -/
def makeWrbContext (d : Descq) (e : CtxtEnv) : List ℕ :=
  let bus64 := wrbBus64 e.descWrbBus
  let v := u32 (bus64 &&& mask wrbCtxtW0Baddr64)
  let w0 := wrbCtxtW0FEnStatDesc.put d.conf.cmplStatEn.toNat |||
    wrbCtxtW0FEnInt.put d.conf.irqEn.toNat |||
    wrbCtxtW0TrigMode.put d.conf.cmplTrigMode |||
    wrbCtxtW0FncId.put (e.funcId &&& mask wrbCtxtW0FncId) |||
    wrbCtxtW0TimerIdx.put d.conf.cmplTimerIdx |||
    wrbCtxtW0CounterIdx.put d.conf.cmplCntThIdx |||
    wrbCtxtW0FColor.put 1 |||
    wrbCtxtW0RngSz.put d.conf.cmplRngSzIdx |||
    wrbCtxtW0Baddr64.put (v &&& mask wrbCtxtW0Baddr64)
  let w1 := (bus64 >>> lWrbCtxtW0Baddr64) &&& 0xFFFFFFFF
  let v := u32 ((bus64 >>> (lWrbCtxtW0Baddr64 + 32)) &&& mask wrbCtxtW2Baddr64)
  let w2 := wrbCtxtW2Baddr64.put (v &&& mask wrbCtxtW2Baddr64) |||
    wrbCtxtW2DescSize.put d.conf.cmplDescSz
  [u32 w0, u32 w1, u32 w2, wrbCtxtW3FValid.put 1]

/-! ## Reading the words -/

/-- The fields of an SW context. -/
@[ext]
structure SwContext where
  pidx : ℕ
  qen : ℕ
  fcrdEn : ℕ
  wbiChk : ℕ
  wbAccEn : ℕ
  funcId : ℕ
  rngSz : ℕ
  dscSz : ℕ
  byp : ℕ
  mmChn : ℕ
  wbkEn : ℕ
  irqEn : ℕ
  dscBase : ℕ
  deriving DecidableEq

/-- What the device makes of the words. -/
def SwContext.decode (w : List ℕ) : SwContext where
  pidx := w.getD 0 0
  qen := descCtxtW1FQen.get (w.getD 1 0)
  fcrdEn := descCtxtW1FFcrdEn.get (w.getD 1 0)
  wbiChk := descCtxtW1FWbiChk.get (w.getD 1 0)
  wbAccEn := descCtxtW1FWbAccEn.get (w.getD 1 0)
  funcId := descCtxtW1FuncId.get (w.getD 1 0)
  rngSz := descCtxtW1RngSz.get (w.getD 1 0)
  dscSz := descCtxtW1DscSz.get (w.getD 1 0)
  byp := descCtxtW1FByp.get (w.getD 1 0)
  mmChn := descCtxtW1FMmChn.get (w.getD 1 0)
  wbkEn := descCtxtW1FWbkEn.get (w.getD 1 0)
  irqEn := descCtxtW1FIrqEn.get (w.getD 1 0)
  dscBase := w.getD 2 0 + w.getD 3 0 * 2 ^ 32

/-- The size of a descriptor, by the kind of the queue. -/
def dscSzOf (conf : QueueConf) : ℕ :=
  if !conf.st then descSz32B else if conf.c2h then descSz8B else descSz16B

/-- What the driver means: credits are for ST C2H queues, channels for MM queues. -/
def SwContext.intended (d : Descq) (e : CtxtEnv) : SwContext where
  pidx := 0
  qen := 1
  fcrdEn := if d.conf.st && d.conf.c2h then d.conf.fetchCredit.toNat else 0
  wbiChk := d.conf.wbkPendChk.toNat
  wbAccEn := d.conf.wbkAccEn.toNat
  funcId := e.funcId
  rngSz := d.conf.descRngSzIdx
  dscSz := dscSzOf d.conf
  byp := d.conf.bypass.toNat
  mmChn := if d.conf.st then 0 else e.channel
  wbkEn := d.conf.wbkEn.toNat
  irqEn := d.conf.irqEn.toNat
  dscBase := e.descBus

/-- The fields of a writeback context. -/
@[ext]
structure WrbContext where
  enStatDesc : ℕ
  enInt : ℕ
  trigMode : ℕ
  fncId : ℕ
  counterIdx : ℕ
  timerIdx : ℕ
  color : ℕ
  rngSz : ℕ
  baddr : ℕ
  descSize : ℕ
  valid : ℕ
  deriving DecidableEq

/-- What the device makes of the words; the address is aligned to 64 bytes. -/
def WrbContext.decode (w : List ℕ) : WrbContext where
  enStatDesc := wrbCtxtW0FEnStatDesc.get (w.getD 0 0)
  enInt := wrbCtxtW0FEnInt.get (w.getD 0 0)
  trigMode := wrbCtxtW0TrigMode.get (w.getD 0 0)
  fncId := wrbCtxtW0FncId.get (w.getD 0 0)
  counterIdx := wrbCtxtW0CounterIdx.get (w.getD 0 0)
  timerIdx := wrbCtxtW0TimerIdx.get (w.getD 0 0)
  color := wrbCtxtW0FColor.get (w.getD 0 0)
  rngSz := wrbCtxtW0RngSz.get (w.getD 0 0)
  baddr := (wrbCtxtW0Baddr64.get (w.getD 0 0) + w.getD 1 0 * 2 ^ 4 +
    wrbCtxtW2Baddr64.get (w.getD 2 0) * 2 ^ 36) * 64
  descSize := wrbCtxtW2DescSize.get (w.getD 2 0)
  valid := wrbCtxtW3FValid.get (w.getD 3 0)

/-- What the driver means. -/
def WrbContext.intended (d : Descq) (e : CtxtEnv) : WrbContext where
  enStatDesc := d.conf.cmplStatEn.toNat
  enInt := d.conf.irqEn.toNat
  trigMode := d.conf.cmplTrigMode
  fncId := e.funcId
  counterIdx := d.conf.cmplCntThIdx
  timerIdx := d.conf.cmplTimerIdx
  color := 1
  rngSz := d.conf.cmplRngSzIdx
  baddr := e.descWrbBus
  descSize := d.conf.cmplDescSz
  valid := 1

/-! ## Nothing is lost -/

/-- The fields of a configuration are as wide as declared. -/
structure QueueConf.Widths (conf : QueueConf) : Prop where
  descRngSzIdx : conf.descRngSzIdx < 2 ^ 4
  c2hBufSzIdx : conf.c2hBufSzIdx < 2 ^ 4
  cmplRngSzIdx : conf.cmplRngSzIdx < 2 ^ 4
  cmplDescSz : conf.cmplDescSz < 2 ^ 2
  cmplTimerIdx : conf.cmplTimerIdx < 2 ^ 4
  cmplCntThIdx : conf.cmplCntThIdx < 2 ^ 4
  cmplTrigMode : conf.cmplTrigMode < 2 ^ 3

/-- So are the others: a function id has 8 bits, there are two channels, and the completion
ring is aligned to 64 bytes. -/
structure CtxtEnv.Widths (e : CtxtEnv) : Prop where
  funcId : e.funcId < 2 ^ 8
  channel : e.channel < 2
  descBus : e.descBus < 2 ^ 64
  descWrbBus : e.descWrbBus < 2 ^ 64
  aligned : 64 ∣ e.descWrbBus

/-- The places in the first word of the SW context. -/
def descCtxtW1 : List Field :=
  [descCtxtW1FQen, descCtxtW1RngSz, descCtxtW1FWbAccEn, descCtxtW1FWbiChk, descCtxtW1FuncId,
    descCtxtW1FByp, descCtxtW1FWbkEn, descCtxtW1FIrqEn, descCtxtW1DscSz, descCtxtW1FMmChn,
    descCtxtW1FFcrdEn]

/-- What stands there. -/
def swFields (d : Descq) (e : CtxtEnv) : List (Field × ℕ) :=
  let c := SwContext.intended d e
  [(descCtxtW1FQen, c.qen), (descCtxtW1RngSz, c.rngSz), (descCtxtW1FWbAccEn, c.wbAccEn),
    (descCtxtW1FWbiChk, c.wbiChk), (descCtxtW1FuncId, c.funcId), (descCtxtW1FByp, c.byp),
    (descCtxtW1FWbkEn, c.wbkEn), (descCtxtW1FIrqEn, c.irqEn), (descCtxtW1DscSz, c.dscSz),
    (descCtxtW1FMmChn, c.mmChn), (descCtxtW1FFcrdEn, c.fcrdEn)]

/-- The places in the first word of the writeback context. -/
def wrbCtxtW0 : List Field :=
  [wrbCtxtW0FEnStatDesc, wrbCtxtW0FEnInt, wrbCtxtW0TrigMode, wrbCtxtW0FncId, wrbCtxtW0TimerIdx,
    wrbCtxtW0CounterIdx, wrbCtxtW0FColor, wrbCtxtW0RngSz, wrbCtxtW0Baddr64]

/-- The places in its third word. -/
def wrbCtxtW2 : List Field := [wrbCtxtW2Baddr64, wrbCtxtW2DescSize]

/-- What stands in the first word. -/
def wrbFields0 (d : Descq) (e : CtxtEnv) : List (Field × ℕ) :=
  let c := WrbContext.intended d e
  [(wrbCtxtW0FEnStatDesc, c.enStatDesc), (wrbCtxtW0FEnInt, c.enInt),
    (wrbCtxtW0TrigMode, c.trigMode), (wrbCtxtW0FncId, c.fncId), (wrbCtxtW0TimerIdx, c.timerIdx),
    (wrbCtxtW0CounterIdx, c.counterIdx), (wrbCtxtW0FColor, c.color), (wrbCtxtW0RngSz, c.rngSz),
    (wrbCtxtW0Baddr64, c.baddr / 64 % 2 ^ 4)]

/-- What stands in the third. -/
def wrbFields2 (d : Descq) (e : CtxtEnv) : List (Field × ℕ) :=
  [(wrbCtxtW2Baddr64, (WrbContext.intended d e).baddr / 64 / 2 ^ 36),
    (wrbCtxtW2DescSize, (WrbContext.intended d e).descSize)]

/-- Outside these places all bits are zero. -/
def Only (fs : List Field) (w : ℕ) : Prop := ∀ i, (∀ f ∈ fs, ¬ f.Covers i) → w.testBit i = false

/-- A word of fields, in a register. -/
theorem u32_pack {fs : List (Field × ℕ)} (hfits : Fits fs)
    (hreach : ∀ f ∈ fs.map Prod.fst, f.shift + f.width ≤ 32) : u32 (pack fs) = pack fs :=
  u32_of_lt (pack_lt hfits (fun p hp => hreach p.1 (List.mem_map_of_mem hp)))

theorem only_fields {fs : List (Field × ℕ)} (hfits : Fits fs) :
    Only (fs.map Prod.fst) (pack fs) :=
  fun _ hout => pack_testBit_outside hfits (fun p hp => hout p.1 (List.mem_map_of_mem hp))

theorem swFields_fits {d : Descq} {e : CtxtEnv} (hd : d.conf.Widths) (he : e.Widths) :
    Fits (swFields d e) := by
  have hbool : ∀ b : Bool, b.toNat < 2 ^ 1 := fun b => Bool.toNat_lt b
  have hif : ∀ b c : Bool, (if b then c.toNat else 0) < 2 ^ 1 := by decide
  have hsz : dscSzOf d.conf < 2 ^ 2 := by
    unfold dscSzOf
    split_ifs <;> decide
  have hchn : (if d.conf.st then 0 else e.channel) < 2 ^ 1 := by
    split_ifs
    · decide
    · exact he.channel
  unfold Fits swFields
  simp only [List.forall_mem_cons, List.not_mem_nil, false_imp_iff, implies_true, and_true]
  exact ⟨Nat.one_lt_two, hd.descRngSzIdx, hbool _, hbool _, he.funcId, hbool _, hbool _, hbool _, hsz,
    hchn, hif _ _⟩

theorem wrbFields0_fits {d : Descq} {e : CtxtEnv} (hd : d.conf.Widths) (he : e.Widths) :
    Fits (wrbFields0 d e) := by
  have hbool : ∀ b : Bool, b.toNat < 2 ^ 1 := fun b => Bool.toNat_lt b
  unfold Fits wrbFields0
  simp only [List.forall_mem_cons, List.not_mem_nil, false_imp_iff, implies_true, and_true]
  exact ⟨hbool _, hbool _, hd.cmplTrigMode, he.funcId, hd.cmplTimerIdx, hd.cmplCntThIdx,
    Nat.one_lt_two, hd.cmplRngSzIdx, Nat.mod_lt _ (by decide)⟩

theorem wrbFields2_fits {d : Descq} {e : CtxtEnv} (hd : d.conf.Widths) (he : e.Widths) :
    Fits (wrbFields2 d e) := by
  have haddr : e.descWrbBus / 64 / 2 ^ 36 < 2 ^ 22 := by
    have h := he.descWrbBus
    omega
  unfold Fits wrbFields2
  simp only [List.forall_mem_cons, List.not_mem_nil, false_imp_iff, implies_true, and_true]
  exact ⟨haddr, hd.cmplDescSz⟩

/-- The halves of an address. -/
theorem pciDma_eq {addr : ℕ} : pciDmaH addr = addr / 2 ^ 32 ∧ pciDmaL addr = addr % 2 ^ 32 := by
  constructor
  · unfold pciDmaH
    rw [← Nat.shiftRight_add, Nat.shiftRight_eq_div_pow]
  · show addr &&& (2 ^ 32 - 1) = _
    rw [Nat.and_two_pow_sub_one_eq_mod]

/-- `bus_64` is the address in units of 64 bytes. -/
theorem wrbBus64_eq (addr : ℕ) : wrbBus64 addr = addr / 64 := by
  obtain ⟨hh, hl⟩ := @pciDma_eq addr
  have hlow : addr % 2 ^ 32 / 2 ^ 6 < 2 ^ 26 := by omega
  unfold wrbBus64
  rw [hh, hl, Nat.shiftRight_eq_div_pow, ← Nat.shiftLeft_add_eq_or_of_lt hlow, Nat.shiftLeft_eq]
  omega

/-- The words of the SW context. -/
theorem makeSwContext_eq {d : Descq} {e : CtxtEnv} (hd : d.conf.Widths) (he : e.Widths) :
    makeSwContext d e
      = [0, pack (swFields d e), e.descBus % 2 ^ 32, e.descBus / 2 ^ 32] := by
  obtain ⟨hh, hl⟩ := @pciDma_eq e.descBus
  have hbus := he.descBus
  have hw1 : u32 (pack (swFields d e)) = pack (swFields d e) := by
    refine u32_pack (swFields_fits hd he) ?_
    show ∀ f ∈ descCtxtW1, f.shift + f.width ≤ 32
    decide
  unfold makeSwContext
  rw [hh, hl, u32_of_lt (Nat.mod_lt _ (by decide)), u32_of_lt (show e.descBus / 2 ^ 32 < _ by omega),
    ← hw1]
  unfold swFields SwContext.intended dscSzOf pack
  cases d.conf.st <;> cases d.conf.c2h <;>
    simp [Field.put, Nat.or_assoc, descSz8B]

/-- The words of the writeback context. -/
theorem makeWrbContext_eq {d : Descq} {e : CtxtEnv} (hd : d.conf.Widths) (he : e.Widths) :
    makeWrbContext d e
      = [pack (wrbFields0 d e), e.descWrbBus / 64 / 2 ^ 4 % 2 ^ 32, pack (wrbFields2 d e),
        wrbCtxtW3FValid.put 1] := by
  have hw0 : u32 (pack (wrbFields0 d e)) = pack (wrbFields0 d e) := by
    refine u32_pack (wrbFields0_fits hd he) ?_
    show ∀ f ∈ wrbCtxtW0, f.shift + f.width ≤ 32
    decide
  have hw2 : u32 (pack (wrbFields2 d e)) = pack (wrbFields2 d e) := by
    refine u32_pack (wrbFields2_fits hd he) ?_
    show ∀ f ∈ wrbCtxtW2, f.shift + f.width ≤ 32
    decide
  have hfnc : e.funcId &&& mask wrbCtxtW0FncId = e.funcId :=
    (and_mask _ _).trans (Nat.mod_eq_of_lt he.funcId)
  -- the three parts of the address
  have hlow : u32 (e.descWrbBus / 64 &&& mask wrbCtxtW0Baddr64) &&& mask wrbCtxtW0Baddr64
      = e.descWrbBus / 64 % 2 ^ 4 := u32_and_mask (by decide) _
  have hmid : u32 ((e.descWrbBus / 64) >>> lWrbCtxtW0Baddr64 &&& 0xFFFFFFFF)
      = e.descWrbBus / 64 / 2 ^ 4 % 2 ^ 32 := by
    show u32 ((e.descWrbBus / 64) >>> 4 &&& (2 ^ 32 - 1)) = _
    rw [Nat.and_two_pow_sub_one_eq_mod, Nat.shiftRight_eq_div_pow]
    exact Nat.mod_mod _ _
  have hhigh : u32 ((e.descWrbBus / 64) >>> (lWrbCtxtW0Baddr64 + 32) &&& mask wrbCtxtW2Baddr64) &&&
      mask wrbCtxtW2Baddr64 = e.descWrbBus / 64 / 2 ^ 36 := by
    have hbus := he.descWrbBus
    rw [u32_and_mask (by decide)]
    show (e.descWrbBus / 64) >>> 36 % 2 ^ 22 = _
    rw [Nat.shiftRight_eq_div_pow]
    omega
  unfold makeWrbContext
  simp only [wrbBus64_eq, hfnc, hlow, hmid, hhigh]
  rw [← hw0, ← hw2]
  unfold wrbFields0 wrbFields2 WrbContext.intended pack
  simp only [List.foldl_cons, List.foldl_nil, Nat.zero_or]

theorem swContext_decode {d : Descq} {e : CtxtEnv} (hd : d.conf.Widths) (he : e.Widths) :
    SwContext.decode (makeSwContext d e) = SwContext.intended d e := by
  have hget := fun k {f v} => @get_fields _ (swFields_fits hd he)
    (show descCtxtW1.Pairwise Field.Apart by decide) k f v
  rw [makeSwContext_eq hd he]
  unfold SwContext.decode
  simp only [List.getD_cons_zero, List.getD_cons_succ, Nat.mod_add_div']
  exact SwContext.ext rfl (hget 0 rfl) (hget 10 rfl) (hget 3 rfl) (hget 2 rfl) (hget 4 rfl)
    (hget 1 rfl) (hget 8 rfl) (hget 5 rfl) (hget 9 rfl) (hget 6 rfl) (hget 7 rfl) rfl

theorem wrbContext_decode {d : Descq} {e : CtxtEnv} (hd : d.conf.Widths) (he : e.Widths) :
    WrbContext.decode (makeWrbContext d e) = WrbContext.intended d e := by
  have hget := fun k {f v} => @get_fields _ (wrbFields0_fits hd he)
    (show wrbCtxtW0.Pairwise Field.Apart by decide) k f v
  have hget2 := fun k {f v} => @get_fields _ (wrbFields2_fits hd he)
    (show wrbCtxtW2.Pairwise Field.Apart by decide) k f v
  -- the address is put together from its three parts
  have haddr : (e.descWrbBus / 64 % 2 ^ 4 + e.descWrbBus / 64 / 2 ^ 4 % 2 ^ 32 * 2 ^ 4 +
      e.descWrbBus / 64 / 2 ^ 36 * 2 ^ 36) * 64 = e.descWrbBus := by
    have halign := Nat.div_mul_cancel he.aligned
    omega
  have hlow : wrbCtxtW0Baddr64.get (pack (wrbFields0 d e)) = e.descWrbBus / 64 % 2 ^ 4 :=
    hget 8 rfl
  have hhigh : wrbCtxtW2Baddr64.get (pack (wrbFields2 d e)) = e.descWrbBus / 64 / 2 ^ 36 :=
    hget2 0 rfl
  rw [makeWrbContext_eq hd he]
  unfold WrbContext.decode
  simp only [List.getD_cons_zero, List.getD_cons_succ, hlow, hhigh, haddr]
  exact WrbContext.ext (hget 0 rfl) (hget 1 rfl) (hget 2 rfl) (hget 3 rfl) (hget 5 rfl)
    (hget 4 rfl) (hget 6 rfl) (hget 7 rfl) rfl (hget2 1 rfl)
    (show wrbCtxtW3FValid.get (wrbCtxtW3FValid.put 1) = 1 by decide)

/-- **The contexts lose nothing**: every field of the SW context and of the writeback context
reads back as meant, and all other bits are zero. -/
theorem contexts_lossless {d : Descq} {e : CtxtEnv} (hd : d.conf.Widths) (he : e.Widths) :
    (SwContext.decode (makeSwContext d e) = SwContext.intended d e ∧
      Only [] ((makeSwContext d e).getD 0 0) ∧
      Only descCtxtW1 ((makeSwContext d e).getD 1 0)) ∧
    WrbContext.decode (makeWrbContext d e) = WrbContext.intended d e ∧
      Only wrbCtxtW0 ((makeWrbContext d e).getD 0 0) ∧
      Only wrbCtxtW2 ((makeWrbContext d e).getD 2 0) ∧
      Only [wrbCtxtW3FValid] ((makeWrbContext d e).getD 3 0) := by
  refine ⟨⟨swContext_decode hd he, ?_⟩, wrbContext_decode hd he, ?_⟩
  · rw [makeSwContext_eq hd he]
    simp only [List.getD_cons_zero, List.getD_cons_succ]
    exact ⟨fun i _ => Nat.zero_testBit i, only_fields (swFields_fits hd he)⟩
  · rw [makeWrbContext_eq hd he]
    simp only [List.getD_cons_zero, List.getD_cons_succ]
    refine ⟨only_fields (wrbFields0_fits hd he), only_fields (wrbFields2_fits hd he), ?_⟩
    have hvalid : Fits [(wrbCtxtW3FValid, 1)] := by decide
    have honly := only_fields hvalid
    have hpack : pack [(wrbCtxtW3FValid, 1)] = wrbCtxtW3FValid.put 1 := by
      unfold pack
      rw [List.foldl_cons, List.foldl_nil, Nat.zero_or]
    rwa [hpack] at honly

/-- An ST C2H queue of function 255, with rings high in memory. -/
def highQueue : Descq :=
  { conf := { st := true, c2h := true, cmplTrigMode := 5, cmplRngSzIdx := 15 } }

@[inherit_doc highQueue]
def highEnv : CtxtEnv := { funcId := 255, descBus := 2 ^ 64 - 4096, descWrbBus := 2 ^ 64 - 64 }

theorem contexts_lossless_high :
    (SwContext.decode (makeSwContext highQueue highEnv) = SwContext.intended highQueue highEnv ∧
      Only [] ((makeSwContext highQueue highEnv).getD 0 0) ∧
      Only descCtxtW1 ((makeSwContext highQueue highEnv).getD 1 0)) ∧
    WrbContext.decode (makeWrbContext highQueue highEnv)
        = WrbContext.intended highQueue highEnv ∧
      Only wrbCtxtW0 ((makeWrbContext highQueue highEnv).getD 0 0) ∧
      Only wrbCtxtW2 ((makeWrbContext highQueue highEnv).getD 2 0) ∧
      Only [wrbCtxtW3FValid] ((makeWrbContext highQueue highEnv).getD 3 0) :=
  contexts_lossless
    ⟨by decide, by decide, by decide, by decide, by decide, by decide, by decide⟩
    ⟨by decide, by decide, by decide, by decide, by decide⟩

end Qdma
