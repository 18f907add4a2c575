/-
# A command on its way to the driver

`xnl_send_cmd` writes the fields of a `struct xcmd_info` into attributes of one message, and the
driver reads them back in `qconf_get` and `xnl_extract_extra_config_attr`, field by field, each on
its own terms for fields that are not there.

Between the two stands `nla_parse` of the kernel, which fills `info->attrs`.  It is a parameter
here, of which only its documentation is used.
-/
import Qdma.Netlink
import Qdma.CmdLine

namespace Qdma

/-! ## The types of the attributes -/

/-- `XNL_ATTR_DEV_IDX`. -/
def xnlAttrDevIdx : ℕ := 2

/-- `XNL_ATTR_QIDX`. -/
def xnlAttrQidx : ℕ := 12

/-- `XNL_ATTR_NUM_Q`. -/
def xnlAttrNumQ : ℕ := 13

/-- `XNL_ATTR_QFLAG`. -/
def xnlAttrQflag : ℕ := 14

/-- `XNL_ATTR_WRB_DESC_SIZE`. -/
def xnlAttrWrbDescSize : ℕ := 15

/-- `XNL_ATTR_QRNGSZ_IDX`. -/
def xnlAttrQrngszIdx : ℕ := 16

/-- `XNL_ATTR_C2H_BUFSZ_IDX`. -/
def xnlAttrC2hBufszIdx : ℕ := 17

/-- `XNL_ATTR_WRB_TIMER_IDX`. -/
def xnlAttrWrbTimerIdx : ℕ := 18

/-- `XNL_ATTR_WRB_CNTR_IDX`. -/
def xnlAttrWrbCntrIdx : ℕ := 19

/-- `XNL_ATTR_WRB_TRIG_MODE`. -/
def xnlAttrWrbTrigMode : ℕ := 20

/-- `XNL_ATTR_RANGE_START`. -/
def xnlAttrRangeStart : ℕ := 21

/-- `XNL_ATTR_RANGE_END`. -/
def xnlAttrRangeEnd : ℕ := 22

/-- `XNL_ATTR_INTR_VECTOR_IDX`. -/
def xnlAttrIntrVectorIdx : ℕ := 23

/-- `XNL_ATTR_INTR_VECTOR_START_IDX`. -/
def xnlAttrIntrVectorStartIdx : ℕ := 24

/-- `XNL_ATTR_INTR_VECTOR_END_IDX`. -/
def xnlAttrIntrVectorEndIdx : ℕ := 25

/-- `XNL_ATTR_RSP_BUF_LEN`. -/
def xnlAttrRspBufLen : ℕ := 26

/-- `XNL_RESP_BUFLEN_MIN`. -/
def xnlRespBuflenMin : ℕ := 256

/-- `XNL_RESP_BUFLEN_MAX`. -/
def xnlRespBuflenMax : ℕ := 2048

/-! ## The tool -/

/-- An attribute, if its parameter is set. -/
def attrIfSet (q : XcmdQParm) (t : QParmType) (type v : ℕ) : List Attr :=
  if q.sflags &&& t.bit ≠ 0 then [.int type v] else []

/-- `xnl_msg_add_extra_config_attrs`. -/
def xnlMsgAddExtraConfigAttrs (q : XcmdQParm) : List Attr :=
  attrIfSet q .rngszIdx xnlAttrQrngszIdx q.qrngszIdx ++
  (attrIfSet q .c2hBufszIdx xnlAttrC2hBufszIdx q.c2hBufszIdx ++
  (attrIfSet q .wrbsz xnlAttrWrbDescSize q.wrbEntrySize ++
  (attrIfSet q .wrbTmrIdx xnlAttrWrbTimerIdx q.wrbTmrIdx ++
  (attrIfSet q .wrbCntrIdx xnlAttrWrbCntrIdx q.wrbCntrIdx ++
  attrIfSet q .wrbTrigMode xnlAttrWrbTrigMode q.wrbTrigMode))))

/-- `get_cmd_resp_buf_len`. -/
def getCmdRespBufLen (x : XcmdInfo) : ℕ :=
  match x.op with
  | .qDesc => u32 (xnlRespBuflenMax + u32Sub x.qparm.rangeEnd x.qparm.rangeStart * 100)
  | .qWrb => u32 (xnlRespBuflenMax + u32Sub x.qparm.rangeEnd x.qparm.rangeStart * 50)
  | .intrRingDump => u32 (xnlRespBuflenMax + u32Sub x.intr.endIdx x.intr.startIdx * 50)
  | .devList | .qList | .qDump | .qAdd => xnlRespBuflenMax
  | _ => xnlRespBuflenMin

/-- The attributes that name the queues of a command. -/
def queueAttrs (q : XcmdQParm) : List Attr :=
  [.int xnlAttrQidx q.idx, .int xnlAttrNumQ q.numQ, .int xnlAttrQflag q.flags.toNat]

/-- The attributes of a command, in the order in which `xnl_send_cmd` writes them. -/
def cmdAttrs (x : XcmdInfo) : List Attr :=
  .int xnlAttrDevIdx x.ifIdx ::
  match x.op with
  | .qAdd | .qStop | .qDel | .qDump => queueAttrs x.qparm
  | .qStart => xnlMsgAddExtraConfigAttrs x.qparm ++ queueAttrs x.qparm
  | .qDesc | .qWrb =>
      queueAttrs x.qparm ++
        [.int xnlAttrRangeStart x.qparm.rangeStart, .int xnlAttrRangeEnd x.qparm.rangeEnd,
          .int xnlAttrRspBufLen (getCmdRespBufLen x)]
  | .qRxPkt =>
      [.int xnlAttrQidx x.qparm.idx, .int xnlAttrNumQ x.qparm.numQ,
        .int xnlAttrQflag xnlFQdirC2h.toNat]
  | .intrRingDump =>
      [.int xnlAttrIntrVectorIdx x.intr.vector, .int xnlAttrIntrVectorStartIdx x.intr.startIdx,
        .int xnlAttrIntrVectorEndIdx x.intr.endIdx, .int xnlAttrRspBufLen (getCmdRespBufLen x)]
  | _ => []

/-- `xnl_send_cmd`, up to the message it sends. -/
def xnlSendCmd (pid family : ℕ) (x : XcmdInfo) : XnlMsg :=
  xnlMsg (getCmdRespBufLen x) pid family x.op.ctorIdx (cmdAttrs x)

/-! ## The driver -/

/-- What `info->attrs` holds, each attribute read with `nla_get_u32`. -/
abbrev InfoAttrs := ℕ → Option ℕ

/-- `struct qdma_queue_conf`, with the field that only the driver's front end sets. -/
structure StartConf extends QueueConf where
  cmplEnIntr : Bool := false

/-- A flag is set. -/
def hasFlag (f g : BitVec 32) : Bool := decide (f &&& g ≠ 0)

/-- `qconf_get`: the configuration and `is_qp`, or what it returns and responds. -/
def qconfGet (attrs : InfoAttrs) : Except (ℤ × String) (StartConf × Bool) :=
  match attrs xnlAttrQflag with
  | none => .error (einval, "Missing attribute 'XNL_ATTR_QFLAG'\n")
  | some v =>
      let f := BitVec.ofNat 32 v
      if hasFlag f xnlFQmodeSt ∧ hasFlag f xnlFQmodeMm then
        .error (einval, "ERR! Both ST and MM mode set.\n")
      else
        let f := if !hasFlag f xnlFQmodeSt && !hasFlag f xnlFQmodeMm then f ||| xnlFQmodeMm else f
        let f := if !hasFlag f xnlFQdirH2c && !hasFlag f xnlFQdirC2h then f ||| xnlFQdirH2c else f
        match attrs xnlAttrQidx with
        | none => .error (einval, "Missing attribute 'XNL_ATTR_QIDX'")
        | some q =>
            let qidx := q % 2 ^ 16
            .ok ({ st := hasFlag f xnlFQmodeSt
                   c2h := hasFlag f xnlFQdirC2h
                   qidx := if qidx = xnlQidxInvalid then 0xFFFF else qidx },
              decide (f &&& xnlFQdirBoth = xnlFQdirBoth))

/-- A field gets an attribute, if it is there, cut to the width of the field. -/
def attrOr (attrs : InfoAttrs) (type width dflt : ℕ) : ℕ :=
  match attrs type with
  | some v => v % 2 ^ width
  | none => dflt

/-- `xnl_extract_extra_config_attr`. -/
def xnlExtractExtraConfigAttr (attrs : InfoAttrs) (qconf : StartConf) : StartConf :=
  let f := BitVec.ofNat 32 ((attrs xnlAttrQflag).getD 0)
  { qconf with
    bypass := hasFlag f xnlFDescBypassEn
    pfetchEn := hasFlag f xnlFPfetchEn
    wbkEn := hasFlag f xnlFWbkEn
    wbkAccEn := hasFlag f xnlFWbkAccEn
    wbkPendChk := hasFlag f xnlFWbkPendChk
    fetchCredit := hasFlag f xnlFFetchCredit
    cmplStatEn := hasFlag f xnlFWrbStatDescEn
    cmplEnIntr := hasFlag f xnlFC2hCmplIntrEn
    cmplUddEn := hasFlag f xnlFCmplUddEn
    descRngSzIdx := attrOr attrs xnlAttrQrngszIdx 4 qconf.descRngSzIdx
    cmplRngSzIdx := attrOr attrs xnlAttrQrngszIdx 4 qconf.cmplRngSzIdx
    c2hBufSzIdx := attrOr attrs xnlAttrC2hBufszIdx 4 qconf.c2hBufSzIdx
    cmplTimerIdx := attrOr attrs xnlAttrWrbTimerIdx 4 qconf.cmplTimerIdx
    cmplCntThIdx := attrOr attrs xnlAttrWrbCntrIdx 4 qconf.cmplCntThIdx
    cmplDescSz := attrOr attrs xnlAttrWrbDescSize 2 qconf.cmplDescSz
    cmplTrigMode := attrOr attrs xnlAttrWrbTrigMode 3 1 }

/-- The configuration that a message is decoded to. -/
def decodeConf (attrs : InfoAttrs) : Except (ℤ × String) (StartConf × Bool) := do
  let (qconf, isQp) ← qconfGet attrs
  .ok (xnlExtractExtraConfigAttr attrs qconf, isQp)

/-! ## The kernel -/

/-- **`nla_parse`**: of attributes with a number each, `info->attrs` has the last one of every
type. -/
def NlaParse (parse : XnlMsg → InfoAttrs) : Prop :=
  ∀ dlen < 2 ^ 31, ∀ m attrs, (∀ a ∈ attrs, a.Ok false ∧ ∃ type v, a = .int type v) →
    attrsLen attrs ≤ dlen → Built dlen m attrs →
      ∀ t, parse m t = (attrs.filterMap (Attr.valueOf t)).getLast?

/-- The attributes of a message as the tool's own reader finds them. -/
def readAttrs (m : XnlMsg) : InfoAttrs := fun t =>
  match recvAttrs false m m.nlmsgLen {} with
  | some (s, _) => if s.xcmd.attrMask.testBit t then some (s.xcmd.attrs t) else none
  | none => none

/-- `nla_parse` with the types of either build. -/
def NlaParseIn (errDebug : Bool) (parse : XnlMsg → InfoAttrs) : Prop :=
  ∀ dlen < 2 ^ 31, ∀ m attrs, (∀ a ∈ attrs, a.Ok errDebug ∧ ∃ type v, a = .int type v) →
    attrsLen attrs ≤ dlen → Built dlen m attrs →
      ∀ t, parse m t = (attrs.filterMap (Attr.valueOf t)).getLast?

/-- The reader of either build. -/
def readAttrsIn (errDebug : Bool) (m : XnlMsg) : InfoAttrs := fun t =>
  match recvAttrs errDebug m m.nlmsgLen {} with
  | some (s, _) => if s.xcmd.attrMask.testBit t then some (s.xcmd.attrs t) else none
  | none => none

/-- An attribute takes at least a byte. -/
theorem length_le_attrsLen (attrs : List Attr) : attrs.length ≤ attrsLen attrs := by
  induction attrs with
  | nil => exact le_refl 0
  | cons a attrs ih =>
      have hle := le_nlaAlign a.nlaLen
      have hpos : 0 < a.nlaLen := Nat.lt_of_lt_of_le (by decide) (Nat.le_add_left 4 _)
      rw [List.length_cons, attrsLen_cons]
      omega

/-- **The tool's reader parses as the kernel does**, in either build. -/
theorem readAttrsIn_parse (errDebug : Bool) : NlaParseIn errDebug (readAttrsIn errDebug) := by
  intro dlen hd m attrs hattrs hfit hb t
  have hok : ∀ a ∈ attrs, a.Ok errDebug := fun a ha => (hattrs a ha).1
  have hmax : toInt (u32Sub m.nlmsgLen xnlHdrLen) = attrsLen attrs := by
    rw [hb.nlmsgLen, u32Sub_of_le (by unfold xnlHdrLen; omega) (Nat.le_add_right _ _),
      Nat.add_sub_cancel_left]
    exact if_pos (by omega)
  have hlen := length_le_attrsLen attrs
  have hfuel : attrs.length < m.nlmsgLen := by
    rw [hb.nlmsgLen]
    unfold xnlHdrLen
    omega
  have hread : recvAttrs errDebug m m.nlmsgLen {} = _ :=
    recvAttrsLoop_laid hok hb.laid hmax (by rw [hb.size]; exact Nat.add_le_add_left hfit _) hfuel
  unfold readAttrsIn
  rw [hread]
  simp only
  have hmask := enter_mask hok {} (show 0 < 2 ^ 32 by decide) t
  -- the last attribute of a type is the one that is read back
  by_cases hmem : ∃ a ∈ attrs, a.type = t
  · rw [if_pos (hmask.mpr (.inr hmem)), enter_attrs]
    obtain ⟨a, ha, htype⟩ := hmem
    obtain ⟨-, type, v, rfl⟩ := hattrs a ha
    have hval : v ∈ attrs.filterMap (Attr.valueOf t) :=
      List.mem_filterMap.mpr ⟨_, ha, if_pos htype⟩
    cases hlast : (attrs.filterMap (Attr.valueOf t)).getLast? with
    | none =>
        rw [List.getLast?_eq_none_iff.mp hlast] at hval
        exact absurd hval List.not_mem_nil
    | some w => rfl
  · have hno : ¬ (attrs.foldl Attr.enter {}).attrMask.testBit t = true := by
      rw [hmask]
      rintro (hzero | h)
      · exact absurd hzero (by rw [Nat.zero_testBit]; decide)
      · exact hmem h
    rw [if_neg hno]
    have hnil : attrs.filterMap (Attr.valueOf t) = [] := by
      rw [List.filterMap_eq_nil_iff]
      intro a ha
      obtain ⟨-, type, v, rfl⟩ := hattrs a ha
      exact if_neg (fun h => hmem ⟨_, ha, h⟩)
    rw [hnil]
    rfl

theorem readAttrs_parse : NlaParse readAttrs := readAttrsIn_parse false

end Qdma
