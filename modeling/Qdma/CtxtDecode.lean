/-
# The scripts that decode contexts

`decode_sw_ctxt.sh`, `decode_wrb_ctxt.sh` and `decode_preftch_ctxt.sh` print the fields of a
context, which they cut out of its words with shifts and masks of their own.  `ctxt_decode_iff` says
when they print what the driver has put there.

The shell calculates with 64 bits.  The words have 32, so that only a shift to the left could lose
a bit.
-/
import Qdma.Contexts

namespace Qdma

open BitField

/-! ## The scripts -/

/-- `a << n` of the shell. -/
def letShl (a n : ℕ) : ℕ := a <<< n % 2 ^ 64

/-- What `decode_sw_ctxt.sh` prints, in its order. -/
structure SwPrinted where
  dscBaseH : ℕ
  dscBaseL : ℕ
  rsv : ℕ
  errWbSent : ℕ
  err : ℕ
  irqNoLast : ℕ
  irqPnd : ℕ
  rsv0 : ℕ
  irqEn : ℕ
  wbkEn : ℕ
  mmChn : ℕ
  byp : ℕ
  dscSz : ℕ
  rngSz : ℕ
  fncId : ℕ
  wbiAccEn : ℕ
  wbiChk : ℕ
  fcrdEn : ℕ
  qen : ℕ
  rsvW0 : ℕ
  irqAck : ℕ
  pidx : ℕ

/-- `decode_sw_ctxt.sh`. -/
def decodeSwCtxt (w3 w2 w1 w0 : ℕ) : SwPrinted where
  dscBaseH := w3
  dscBaseL := w2
  rsv := (w1 >>> 29) &&& 0x7F
  errWbSent := (w1 >>> 28) &&& 0x1
  err := (w1 >>> 26) &&& 0x3
  irqNoLast := (w1 >>> 25) &&& 0x1
  irqPnd := (w1 >>> 24) &&& 0x1
  rsv0 := (w1 >>> 22) &&& 0x3
  irqEn := (w1 >>> 21) &&& 0x1
  wbkEn := (w1 >>> 20) &&& 0x1
  mmChn := (w1 >>> 19) &&& 0x1
  byp := (w1 >>> 18) &&& 0x1
  dscSz := (w1 >>> 16) &&& 0x3
  rngSz := (w1 >>> 12) &&& 0xF
  fncId := (w1 >>> 4) &&& 0xFF
  wbiAccEn := (w1 >>> 3) &&& 0x1
  wbiChk := (w1 >>> 2) &&& 0x1
  fcrdEn := (w1 >>> 1) &&& 0x1
  qen := w1 &&& 0x1
  rsvW0 := (w0 >>> 17) &&& 0x7FFF
  irqAck := (w0 >>> 16) &&& 0x1
  pidx := w0 &&& 0xFF

/-- What `decode_wrb_ctxt.sh` prints, in its order; both addresses are printed in two words. -/
structure WrbPrinted where
  valid : ℕ
  cidx : ℕ
  pidx : ℕ
  descSize : ℕ
  baddr64H : ℕ
  baddr64L : ℕ
  baddrH : ℕ
  baddrL : ℕ
  rngSz : ℕ
  color : ℕ
  intSt : ℕ
  timerIdx : ℕ
  counterIdx : ℕ
  fncId : ℕ
  trigMode : ℕ
  enInt : ℕ
  enStatDesc : ℕ

/-- `decode_wrb_ctxt.sh`. -/
def decodeWrbCtxt (w3 w2 w1 w0 : ℕ) : WrbPrinted :=
  let v2 := letShl (w2 &&& 0x3FFFFF) 4 ||| (w1 >>> 28)
  let v1 := letShl w1 4 ||| ((w0 >>> 28) &&& 0xF)
  { valid := (w3 >>> 24) &&& 0x1
    cidx := (w3 >>> 8) &&& 0xFFFF
    pidx := letShl (w3 &&& 0xFF) 8 ||| ((w2 >>> 24) &&& 0xFF)
    descSize := (w2 >>> 28) &&& 0x3
    baddr64H := v2
    baddr64L := v1
    baddrH := letShl v2 6 ||| ((v1 &&& 0x3F) >>> 26)
    baddrL := letShl v1 6
    rngSz := (w0 >>> 24) &&& 0xF
    color := (w0 >>> 23) &&& 0x1
    intSt := (w0 >>> 21) &&& 0x3
    timerIdx := (w0 >>> 17) &&& 0xF
    counterIdx := (w0 >>> 13) &&& 0xF
    fncId := (w0 >>> 5) &&& 0xF
    trigMode := (w0 >>> 2) &&& 0x7
    enInt := (w0 >>> 1) &&& 0x1
    enStatDesc := w0 &&& 0x1 }

/-- What `decode_preftch_ctxt.sh` prints, in its order. -/
structure PftchPrinted where
  valid : ℕ
  swCrdt : ℕ
  qIsInPftch : ℕ
  enPftch : ℕ
  portId : ℕ
  fncId : ℕ
  bufSizeIdx : ℕ
  bypass : ℕ

/-- `decode_preftch_ctxt.sh`. -/
def decodePreftchCtxt (w1 w0 : ℕ) : PftchPrinted where
  valid := (w1 >>> 13) &&& 0x1
  swCrdt := letShl (w1 &&& 0x1FFF) 3 ||| ((w0 >>> 29) &&& 0x7)
  qIsInPftch := (w0 >>> 28) &&& 0x1
  enPftch := (w0 >>> 27) &&& 0x1
  portId := (w0 >>> 13) &&& 0x7
  fncId := (w0 >>> 5) &&& 0xFF
  bufSizeIdx := (w0 >>> 1) &&& 0xF
  bypass := w0 &&& 0x1

/-- The script on the words of an SW context, which it is given from the last one on. -/
def printSw (w : List ℕ) : SwPrinted :=
  decodeSwCtxt (w.getD 3 0) (w.getD 2 0) (w.getD 1 0) (w.getD 0 0)

@[inherit_doc printSw]
def printWrb (w : List ℕ) : WrbPrinted :=
  decodeWrbCtxt (w.getD 3 0) (w.getD 2 0) (w.getD 1 0) (w.getD 0 0)

@[inherit_doc printSw]
def printPftch (w : List ℕ) : PftchPrinted := decodePreftchCtxt (w.getD 1 0) (w.getD 0 0)

/-! ## The law -/

/-- The producer index of an SW context, where the script says it is: `W0[15:0]`. -/
def descCtxtW0Pidx : Field := ⟨0, 16⟩

/-- `S_WRB_CTXT_W2_PIDX_L`. -/
def wrbCtxtW2PidxL : Field := ⟨24, 8⟩

/-- `S_WRB_CTXT_W3_PIDX_H`. -/
def wrbCtxtW3PidxH : Field := ⟨0, 8⟩

/-- `S_WRB_CTXT_W3_CIDX`. -/
def wrbCtxtW3Cidx : Field := ⟨8, 16⟩

/-- `S_PFTCH_W0_SW_CRDT_L`. -/
def pftchW0SwCrdtL : Field := ⟨29, 3⟩

/-- `S_PFTCH_W1_SW_CRDT_H`. -/
def pftchW1SwCrdtH : Field := ⟨0, 13⟩

/-- The fields of an SW context, as printed. -/
def SwPrinted.context (p : SwPrinted) : SwContext where
  pidx := p.pidx
  qen := p.qen
  fcrdEn := p.fcrdEn
  wbiChk := p.wbiChk
  wbAccEn := p.wbiAccEn
  funcId := p.fncId
  rngSz := p.rngSz
  dscSz := p.dscSz
  byp := p.byp
  mmChn := p.mmChn
  wbkEn := p.wbkEn
  irqEn := p.irqEn
  dscBase := p.dscBaseL + p.dscBaseH * 2 ^ 32

/-- **A writeback context is printed as encoded.**  Of the address of the ring, in both its units,
the two words are those of the number, up to the last 6 bits, which are not encoded. -/
structure WrbShown (c : WrbContext) (p : WrbPrinted) : Prop where
  enStatDesc : p.enStatDesc = c.enStatDesc
  enInt : p.enInt = c.enInt
  trigMode : p.trigMode = c.trigMode
  fncId : p.fncId = c.fncId
  counterIdx : p.counterIdx = c.counterIdx
  timerIdx : p.timerIdx = c.timerIdx
  color : p.color = c.color
  rngSz : p.rngSz = c.rngSz
  baddr64 : p.baddr64H = c.baddr / 64 / 2 ^ 32 ∧ p.baddr64L = c.baddr / 64 % 2 ^ 32
  baddr : p.baddrH = c.baddr / 2 ^ 32 ∧ p.baddrL = c.baddr / 64 * 64 % 2 ^ 32
  descSize : p.descSize = c.descSize
  valid : p.valid = c.valid

/-- **A prefetch context is printed as encoded**: without prefetching it is empty. -/
structure PftchShown (conf : QueueConf) (p : PftchPrinted) : Prop where
  bypass : p.bypass = if conf.pfetchEn then conf.bypass.toNat else 0
  bufSizeIdx : p.bufSizeIdx = if conf.pfetchEn then conf.c2hBufSzIdx else 0
  enPftch : p.enPftch = conf.pfetchEn.toNat
  valid : p.valid = 1

/-- What is encoded has the widths that the device has for it: a function id of 8 bits, two
channels, addresses of 64 bits. -/
structure CtxtEnv.InRange (e : CtxtEnv) : Prop where
  funcId : e.funcId < 2 ^ 8
  channel : e.channel < 2
  descBus : e.descBus < 2 ^ 64
  descWrbBus : e.descWrbBus < 2 ^ 64

/-- **The scripts agree with the driver**: they print what it encodes for a queue, and of any words
`sw`, `wrb` and `pftch` the indices and credits that stand there. -/
structure RightDecode (d : Descq) (e : CtxtEnv) (sw wrb pftch : List ℕ) : Prop where
  swEncoded : (printSw (makeSwContext d e)).context = SwContext.intended d e
  wrbEncoded : WrbShown (WrbContext.intended d e) (printWrb (makeWrbContext d e))
  pftchEncoded : PftchShown d.conf (printPftch (makePrefetchContext d))
  swPidx : (printSw sw).pidx = descCtxtW0Pidx.get (sw.getD 0 0)
  wrbPidx : (printWrb wrb).pidx
    = wrbCtxtW3PidxH.get (wrb.getD 3 0) * 2 ^ 8 + wrbCtxtW2PidxL.get (wrb.getD 2 0)
  wrbCidx : (printWrb wrb).cidx = wrbCtxtW3Cidx.get (wrb.getD 3 0)
  pftchCrdt : (printPftch pftch).swCrdt
    = pftchW1SwCrdtH.get (pftch.getD 1 0) * 2 ^ 3 + pftchW0SwCrdtL.get (pftch.getD 0 0)

/-- **When they do**: the function id has 4 bits, the completion size is 0, the ring has an address
without bits 32 to 41, and the producer index has 8 bits. -/
structure DecodeFits (d : Descq) (e : CtxtEnv) (sw : List ℕ) : Prop where
  fncId : e.funcId < 16
  descSize : d.conf.cmplDescSz = 0
  baddr : e.descWrbBus / 2 ^ 32 % 2 ^ 10 = 0
  pidx : sw.getD 0 0 / 2 ^ 8 % 2 ^ 8 = 0

/-! ## What is printed of any words -/

theorem letShl_of_lt {a n : ℕ} (h : a * 2 ^ n < 2 ^ 64) : letShl a n = a * 2 ^ n := by
  unfold letShl
  rw [Nat.shiftLeft_eq, Nat.mod_eq_of_lt h]

theorem get_lt (f : Field) (w : ℕ) : f.get w < 2 ^ f.width := by
  rw [Field.get_eq]
  exact Nat.mod_lt _ (Nat.two_pow_pos _)

/-- **Two fields are joined as they stand in two words.** -/
theorem letShl_join (f g : Field) (w v : ℕ) (h : f.width + g.width ≤ 64) :
    letShl (f.get w) g.width ||| g.get v = f.get w * 2 ^ g.width + g.get v := by
  have hlt : f.get w * 2 ^ g.width < 2 ^ 64 := by
    calc f.get w * 2 ^ g.width < 2 ^ f.width * 2 ^ g.width :=
          Nat.mul_lt_mul_of_pos_right (get_lt f w) (Nat.two_pow_pos _)
      _ = 2 ^ (f.width + g.width) := (pow_add 2 _ _).symm
      _ ≤ 2 ^ 64 := Nat.pow_le_pow_right (by decide) h
  rw [← Field.join_get, letShl_of_lt hlt, Nat.shiftLeft_eq]

theorem printWrb_pidx (w : List ℕ) : (printWrb w).pidx
    = wrbCtxtW3PidxH.get (w.getD 3 0) * 2 ^ 8 + wrbCtxtW2PidxL.get (w.getD 2 0) :=
  letShl_join wrbCtxtW3PidxH wrbCtxtW2PidxL _ _ (by decide)

theorem printPftch_swCrdt (w : List ℕ) : (printPftch w).swCrdt
    = pftchW1SwCrdtH.get (w.getD 1 0) * 2 ^ 3 + pftchW0SwCrdtL.get (w.getD 0 0) :=
  letShl_join pftchW1SwCrdtH pftchW0SwCrdtL _ _ (by decide)

/-- The index of an SW context is cut to a byte. -/
theorem printSw_pidx (w : List ℕ) : (printSw w).pidx = descCtxtW0Pidx.get (w.getD 0 0) ↔
    w.getD 0 0 / 2 ^ 8 % 2 ^ 8 = 0 := by
  have hbyte : (printSw w).pidx = w.getD 0 0 % 2 ^ 8 := Nat.and_two_pow_sub_one_eq_mod _ 8
  have hfield : descCtxtW0Pidx.get (w.getD 0 0) = w.getD 0 0 / 2 ^ 0 % 2 ^ 16 := Field.get_eq _ _
  rw [hbyte, hfield]
  omega

/-- With no index the SW context is printed as it is read. -/
theorem printSw_context {w : List ℕ} (h : w.getD 0 0 = 0) :
    (printSw w).context = SwContext.decode w := by
  have hpidx : (printSw w).pidx = w.getD 0 0 := by
    rw [h]
    show w.getD 0 0 &&& 0xFF = 0
    rw [h]
    rfl
  exact SwContext.ext hpidx rfl rfl rfl rfl rfl rfl rfl rfl rfl rfl rfl rfl

/-! ## What is printed of the driver's words -/

/-- The ring at the address that is encoded. -/
def CtxtEnv.encoded (e : CtxtEnv) : CtxtEnv := { e with descWrbBus := e.descWrbBus / 64 * 64 }

section Encoded

variable {d : Descq} {e : CtxtEnv}

theorem CtxtEnv.InRange.widths (h : e.InRange) : e.encoded.Widths where
  funcId := h.funcId
  channel := h.channel
  descBus := h.descBus
  descWrbBus := lt_of_le_of_lt (Nat.div_mul_le_self _ _) h.descWrbBus
  aligned := Nat.dvd_mul_left _ _

theorem makeWrbContext_encoded : makeWrbContext d e = makeWrbContext d e.encoded := by
  have hbus : wrbBus64 e.encoded.descWrbBus = wrbBus64 e.descWrbBus := by
    rw [wrbBus64_eq, wrbBus64_eq]
    exact Nat.mul_div_cancel _ (by decide)
  unfold makeWrbContext
  rw [hbus]
  rfl

/-- **The SW context is printed as encoded.** -/
theorem sw_shown (hd : d.conf.Widths) (he : e.InRange) :
    (printSw (makeSwContext d e)).context = SwContext.intended d e := by
  have hdecode := swContext_decode hd he.widths
  rw [printSw_context rfl]
  exact hdecode

/-- The places in the first word of the prefetch context, and what stands there. -/
def pftchFields (conf : QueueConf) : List (Field × ℕ) :=
  [(pftchW0FBypass, conf.bypass.toNat), (pftchW0BufSizeIdx, conf.c2hBufSzIdx),
    (pftchW0FEnPftch, conf.pfetchEn.toNat)]

/-- **The prefetch context is printed as encoded.** -/
theorem pftch_shown (hd : d.conf.Widths) :
    PftchShown d.conf (printPftch (makePrefetchContext d)) := by
  cases hen : d.conf.pfetchEn with
  | false =>
      have hwords : makePrefetchContext d = [0, pftchW1FValid.put 1] := by
        unfold makePrefetchContext
        rw [hen, if_neg Bool.false_ne_true]
      rw [hwords]
      constructor
      · rw [hen]
        rfl
      · rw [hen]
        rfl
      · rw [hen]
        rfl
      · rfl
  | true =>
      have hfits : Fits (pftchFields d.conf) := by
        intro p hp
        simp only [pftchFields, List.mem_cons, List.not_mem_nil, or_false] at hp
        rcases hp with rfl | rfl | rfl
        · exact Bool.toNat_lt _
        · exact hd.c2hBufSzIdx
        · exact Bool.toNat_lt _
      have hw0 : u32 (pack (pftchFields d.conf)) = pack (pftchFields d.conf) := by
        refine u32_pack hfits ?_
        show ∀ f ∈ [pftchW0FBypass, pftchW0BufSizeIdx, pftchW0FEnPftch], f.shift + f.width ≤ 32
        decide
      have hget := fun k {f v} => @get_fields _ hfits
        (show [pftchW0FBypass, pftchW0BufSizeIdx, pftchW0FEnPftch].Pairwise Field.Apart by decide)
        k f v
      have hwords : makePrefetchContext d = [pack (pftchFields d.conf), pftchW1FValid.put 1] := by
        rw [← hw0]
        unfold makePrefetchContext pftchFields pack
        rw [hen]
        simp only [List.foldl_cons, List.foldl_nil, Nat.zero_or]
        rfl
      rw [hwords]
      constructor
      · rw [hen]
        exact hget 0 rfl
      · rw [hen]
        exact hget 1 rfl
      · exact hget 2 rfl
      · show (pftchW1FValid.put 1 >>> 13) &&& 0x1 = 1
        decide

/-- The halves of the address, and when they are those of the number. -/
theorem wrb_halves (addr : ℕ) :
    (addr / 64 / 2 ^ 32 * 2 ^ 6 = addr / 2 ^ 32 ∧
      addr / 64 % 2 ^ 36 * 2 ^ 6 = addr / 64 * 64 % 2 ^ 32) ↔ addr / 2 ^ 32 % 2 ^ 10 = 0 := by
  omega

/-- The words that are printed of the address. -/
theorem wrb_address (hd : d.conf.Widths) (he : e.InRange) :
    (printWrb (makeWrbContext d e)).baddr64H = e.descWrbBus / 64 / 2 ^ 32 ∧
      (printWrb (makeWrbContext d e)).baddr64L = e.descWrbBus / 64 % 2 ^ 36 ∧
      (printWrb (makeWrbContext d e)).baddrH = e.descWrbBus / 64 / 2 ^ 32 * 2 ^ 6 ∧
      (printWrb (makeWrbContext d e)).baddrL = e.descWrbBus / 64 % 2 ^ 36 * 2 ^ 6 := by
  have hlt := he.descWrbBus
  have hunit : e.encoded.descWrbBus / 64 = e.descWrbBus / 64 :=
    Nat.mul_div_cancel _ (by decide)
  have hget := fun k {f v} => @get_fields _ (wrbFields0_fits hd he.widths)
    (show wrbCtxtW0.Pairwise Field.Apart by decide) k f v
  have hget2 := fun k {f v} => @get_fields _ (wrbFields2_fits hd he.widths)
    (show wrbCtxtW2.Pairwise Field.Apart by decide) k f v
  -- the three parts of the address, in units of 64 bytes
  have hlow : wrbCtxtW0Baddr64.get (pack (wrbFields0 d e.encoded)) = e.descWrbBus / 64 % 2 ^ 4 := by
    rw [← hunit]
    exact hget 8 rfl
  have hhigh : wrbCtxtW2Baddr64.get (pack (wrbFields2 d e.encoded))
      = e.descWrbBus / 64 / 2 ^ 36 := by
    rw [← hunit]
    exact hget2 0 rfl
  rw [makeWrbContext_encoded, makeWrbContext_eq hd he.widths, hunit]
  have hv2 : letShl (wrbCtxtW2Baddr64.get (pack (wrbFields2 d e.encoded))) 4 |||
      (e.descWrbBus / 64 / 2 ^ 4 % 2 ^ 32) >>> 28 = e.descWrbBus / 64 / 2 ^ 32 := by
    rw [hhigh, letShl_of_lt (by omega), Nat.shiftRight_eq_div_pow, ← Nat.shiftLeft_eq,
      ← Nat.shiftLeft_add_eq_or_of_lt (by omega), Nat.shiftLeft_eq]
    omega
  have hv1 : letShl (e.descWrbBus / 64 / 2 ^ 4 % 2 ^ 32) 4 |||
      wrbCtxtW0Baddr64.get (pack (wrbFields0 d e.encoded)) = e.descWrbBus / 64 % 2 ^ 36 := by
    rw [hlow, letShl_of_lt (by omega), ← Nat.shiftLeft_eq,
      ← Nat.shiftLeft_add_eq_or_of_lt (by omega), Nat.shiftLeft_eq]
    omega
  refine ⟨hv2, hv1, ?_, ?_⟩
  · show letShl (letShl (wrbCtxtW2Baddr64.get (pack (wrbFields2 d e.encoded))) 4 |||
      (e.descWrbBus / 64 / 2 ^ 4 % 2 ^ 32) >>> 28) 6 ||| (_ &&& 0x3F) >>> 26 = _
    -- of six bits nothing is left above the 26th
    have hnone : ∀ v : ℕ, (v &&& 0x3F) >>> 26 = 0 := by
      intro v
      have hmod : v &&& 0x3F = v % 2 ^ 6 := Nat.and_two_pow_sub_one_eq_mod v 6
      rw [hmod, Nat.shiftRight_eq_div_pow]
      omega
    rw [hv2, hnone, Nat.or_zero, letShl_of_lt (by omega)]
  · show letShl (letShl (e.descWrbBus / 64 / 2 ^ 4 % 2 ^ 32) 4 |||
      wrbCtxtW0Baddr64.get (pack (wrbFields0 d e.encoded))) 6 = _
    rw [hv1, letShl_of_lt (by omega)]

/-- **When the writeback context is printed as encoded.** -/
theorem wrb_shown_iff (hd : d.conf.Widths) (he : e.InRange) :
    WrbShown (WrbContext.intended d e) (printWrb (makeWrbContext d e)) ↔
      e.funcId < 16 ∧ d.conf.cmplDescSz = 0 ∧ e.descWrbBus / 2 ^ 32 % 2 ^ 10 = 0 := by
  obtain ⟨h64H, h64L, hH, hL⟩ := wrb_address hd he
  have hdecode : WrbContext.decode (makeWrbContext d e) = WrbContext.intended d e.encoded := by
    rw [makeWrbContext_encoded]
    exact wrbContext_decode hd he.widths
  have hfnc : (printWrb (makeWrbContext d e)).fncId = e.funcId % 2 ^ 4 := by
    have hid : wrbCtxtW0FncId.get ((makeWrbContext d e).getD 0 0) = e.funcId :=
      congrArg WrbContext.fncId hdecode
    rw [← hid]
    exact Field.get_narrow wrbCtxtW0FncId (show 4 ≤ 8 by decide) _
  have hsize : (printWrb (makeWrbContext d e)).descSize = 0 := by
    rw [makeWrbContext_encoded, makeWrbContext_eq hd he.widths]
    refine get_pack_outside (f := ⟨28, 2⟩) (wrbFields2_fits hd he.widths) fun p hp => ?_
    have hapart : ∀ f ∈ wrbCtxtW2, Field.Apart ⟨28, 2⟩ f := by decide
    exact hapart p.1 (List.mem_map_of_mem hp)
  have hfuncId := he.funcId
  constructor
  · intro h
    refine ⟨?_, ?_, ?_⟩
    · have hid : e.funcId % 2 ^ 4 = e.funcId := hfnc.symm.trans h.fncId
      omega
    · exact h.descSize.symm.trans hsize
    · apply (wrb_halves e.descWrbBus).mp
      exact ⟨hH.symm.trans h.baddr.1, hL.symm.trans h.baddr.2⟩
  · rintro ⟨hid, hsz, haddr⟩
    obtain ⟨hhalfH, hhalfL⟩ := (wrb_halves e.descWrbBus).mpr haddr
    exact {
      enStatDesc := congrArg WrbContext.enStatDesc hdecode
      enInt := congrArg WrbContext.enInt hdecode
      trigMode := congrArg WrbContext.trigMode hdecode
      fncId := hfnc.trans (Nat.mod_eq_of_lt hid)
      counterIdx := congrArg WrbContext.counterIdx hdecode
      timerIdx := congrArg WrbContext.timerIdx hdecode
      color := congrArg WrbContext.color hdecode
      rngSz := congrArg WrbContext.rngSz hdecode
      baddr64 := ⟨h64H, h64L.trans (by show _ = e.descWrbBus / 64 % 2 ^ 32; omega)⟩
      baddr := ⟨hH.trans hhalfH, hL.trans hhalfL⟩
      descSize := hsize.trans hsz.symm
      valid := congrArg WrbContext.valid hdecode }

end Encoded

/-- **When the scripts agree with the driver.** -/
theorem ctxt_decode_iff {d : Descq} {e : CtxtEnv} (hd : d.conf.Widths) (he : e.InRange)
    (sw wrb pftch : List ℕ) : RightDecode d e sw wrb pftch ↔ DecodeFits d e sw := by
  constructor
  · intro h
    obtain ⟨hid, hsz, haddr⟩ := (wrb_shown_iff hd he).mp h.wrbEncoded
    exact ⟨hid, hsz, haddr, (printSw_pidx sw).mp h.swPidx⟩
  · rintro ⟨hid, hsz, haddr, hpidx⟩
    exact {
      swEncoded := sw_shown hd he
      wrbEncoded := (wrb_shown_iff hd he).mpr ⟨hid, hsz, haddr⟩
      pftchEncoded := pftch_shown hd
      swPidx := (printSw_pidx sw).mpr hpidx
      wrbPidx := printWrb_pidx wrb
      wrbCidx := rfl
      pftchCrdt := printPftch_swCrdt pftch }

/-- A queue of function 5 with its rings below 4 GiB. -/
def lowQueue : Descq := { conf := { st := true, c2h := true, pfetchEn := true, c2hBufSzIdx := 9 } }

@[inherit_doc lowQueue]
def lowEnv : CtxtEnv := { funcId := 5, descBus := 0x12345000, descWrbBus := 0xFFFFFFC0 }

theorem ctxt_decode_low :
    RightDecode lowQueue lowEnv [200, 0, 0, 0] [0, 0x12000000, 0, 0x345678] [0xE0000000, 0x1FFF] :=
  (ctxt_decode_iff ⟨by decide, by decide, by decide, by decide, by decide, by decide, by decide⟩
    ⟨by decide, by decide, by decide, by decide⟩ _ _ _).mpr
    ⟨by decide, by decide, by decide, by decide⟩

/-- **Four fields that are misread**: a function id above 15, a completion size, an address above
4 GiB and an index above 255. -/
theorem ctxt_decode_misread :
    (printWrb (makeWrbContext highQueue { highEnv with funcId := 0x23 })).fncId = 3 ∧
      (printWrb (makeWrbContext { conf := { st := true, c2h := true, cmplDescSz := 2 } }
        lowEnv)).descSize = 0 ∧
      (printWrb (makeWrbContext lowQueue { lowEnv with descWrbBus := 0x123456780 })).baddrH = 0 ∧
      (printSw [0x1234, 0, 0, 0]).pidx = 0x34 ∧
      ¬ RightDecode highQueue highEnv [0, 0, 0, 0] [0, 0, 0, 0] [0, 0] ∧
      ¬ RightDecode lowQueue lowEnv [0x1234, 0, 0, 0] [0, 0, 0, 0] [0, 0] := by
  refine ⟨by decide, by decide, by decide, by decide, fun h => ?_, fun h => ?_⟩
  · exact absurd h.wrbEncoded.fncId (by decide)
  · exact absurd h.swPidx (by decide)

end Qdma
