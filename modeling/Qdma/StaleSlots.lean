/-
# Slots that are not written yet

The status of a completion ring may run ahead of its entries; the colour of an entry says whether
it is new.  `parse_cmpl_entry` judges an entry before its colour is looked at.

`procLoopNew` is the loop that looks at the colour first, and so does nothing with a slot whose
colour is not the current one.  `stale_ignored_iff` says when the two agree: as long as the loop
does not come to such a slot with an entry that it takes for an error.  `stale_slot_halts` is the
first lap, where such slots are all zero.
-/
import Qdma.Upper

namespace Qdma

/-! ## Along the completion ring -/

/-- Where the loop over the completion entries stands: what it reads of the queue, and the first
buffer that is not used. -/
structure Way where
  rngsz : ℕ
  rngszWrb : ℕ
  cmplUddEn : Bool
  pgShift : ℕ
  wbEntryLen : ℕ
  descWrb : WrbRing
  cidxWrb : ℕ
  descWrbCur : ℕ
  color : Bool
  pidx : ℕ

/-- The place of a queue, from the buffer `pidx` on. -/
def Descq.way (d : Descq) (pidx : ℕ) : Way where
  rngsz := d.conf.rngsz
  rngszWrb := d.conf.rngszWrb
  cmplUddEn := d.conf.cmplUddEn
  pgShift := d.flq.pgShift
  wbEntryLen := d.wbEntryLen
  descWrb := d.descWrb
  cidxWrb := d.cidxWrb
  descWrbCur := d.descWrbCur
  color := d.color
  pidx := pidx

/-- The entry there. -/
def Way.entry (w : Way) : CmplInfo := cmplInfo (w.descWrb.mem w.descWrbCur)

/-- It is not new: its colour is not the current one. -/
def Way.Stale (w : Way) : Prop := w.entry.color ≠ w.color

/-- `parse_cmpl_entry` halts the queue. -/
def Way.faulty (w : Way) : Bool :=
  w.entry.err || w.entry.format || (!w.entry.descUsed && !w.cmplUddEn)

/-- The number of its buffers. -/
def Way.nr (w : Way) : ℕ := flNr w.pgShift w.entry.len

/-- The first buffer after the entry. -/
def Way.pidxNext (w : Way) : ℕ :=
  if w.entry.descUsed then ringIdxIncr (ringIdxIncr w.pidx (u32Sub w.nr 1) w.rngsz) 1 w.rngsz
  else w.pidx

/-- What a handler is given with it. -/
def Way.args (w : Way) : PktArgs :=
  if w.entry.descUsed then
    { len := w.entry.len, sgcnt := w.nr, slot := w.pidx,
      udd := if w.cmplUddEn then some w.entry.entry else none }
  else { len := 0, sgcnt := 0, slot := 0, udd := some w.entry.entry }

/-- The handler, if there is one, takes it. -/
def Way.Takes (w : Way) : Option (PktArgs → ℤ) → Prop
  | none => True
  | some fp => 0 ≤ fp w.args

/-- The next place, as in `wrb_next`. -/
def Way.next (w : Way) : Way :=
  if w.cidxWrb + 1 = w.rngszWrb then
    { w with cidxWrb := 0, color := !w.color, descWrbCur := 0, pidx := w.pidxNext }
  else
    { w with
      cidxWrb := w.cidxWrb + 1, descWrbCur := w.descWrbCur + w.wbEntryLen, pidx := w.pidxNext }

/-- The entry is new and sound. -/
structure Way.Good (w : Way) : Prop where
  fresh : ¬ w.Stale
  sound : w.faulty = false

/-- **The loop comes to the place `k` entries on**: those before it are new, sound and taken. -/
def Way.ComesTo (w : Way) (fp : Option (PktArgs → ℤ)) (k : ℕ) : Prop :=
  ∀ j < k, (Way.next^[j] w).Good ∧ (Way.next^[j] w).Takes fp

theorem Way.comesTo_zero (w : Way) (fp : Option (PktArgs → ℤ)) : w.ComesTo fp 0 :=
  fun j hj => absurd hj (Nat.not_lt_zero j)

/-- By the first entry. -/
theorem Way.comesTo_succ {w : Way} {fp : Option (PktArgs → ℤ)} {k : ℕ} :
    w.ComesTo fp (k + 1) ↔ (w.Good ∧ w.Takes fp) ∧ w.next.ComesTo fp k := by
  constructor
  · intro h
    exact ⟨h 0 k.succ_pos, fun j hj => h (j + 1) (Nat.succ_lt_succ hj)⟩
  · rintro ⟨h0, h⟩ j hj
    cases j with
    | zero => exact h0
    | succ j => exact h j (Nat.lt_of_succ_lt_succ hj)

/-! ## One entry -/

theorem way_wrbNext (d : Descq) (pidx pidx' : ℕ) (h : pidx' = (d.way pidx).pidxNext) :
    (wrbNext d).way pidx' = (d.way pidx).next := by
  rw [h]
  unfold wrbNext Way.next
  by_cases hlast : d.cidxWrb + 1 = d.conf.rngszWrb
  · rw [if_pos hlast, if_pos (show (d.way pidx).cidxWrb + 1 = (d.way pidx).rngszWrb from hlast)]
    rfl
  · rw [if_neg hlast, if_neg (show ¬ (d.way pidx).cidxWrb + 1 = (d.way pidx).rngszWrb from hlast)]
    rfl

/-- What the place depends on, besides the size of the buffers. -/
def Descq.wayPart (d : Descq) : QueueConf × ℕ × WrbRing × ℕ × ℕ × Bool :=
  (d.conf, d.wbEntryLen, d.descWrb, d.cidxWrb, d.descWrbCur, d.color)

theorem way_congr {d d' : Descq} (h : d'.wayPart = d.wayPart)
    (hshift : d'.flq.pgShift = d.flq.pgShift) (pidx : ℕ) : d'.way pidx = d.way pidx := by
  have hconf : d'.conf = d.conf := congrArg (·.1) h
  have hlen : d'.wbEntryLen = d.wbEntryLen := congrArg (·.2.1) h
  have hwrb : d'.descWrb = d.descWrb := congrArg (·.2.2.1) h
  have hcidx : d'.cidxWrb = d.cidxWrb := congrArg (·.2.2.2.1) h
  have hcur : d'.descWrbCur = d.descWrbCur := congrArg (·.2.2.2.2.1) h
  have hcolor : d'.color = d.color := congrArg (·.2.2.2.2.2) h
  unfold Descq.way
  rw [hconf, hlen, hwrb, hcidx, hcur, hcolor, hshift]

/-- The size of the buffers is for good. -/
theorem pgShift_frame : FlqRcvFrame Flq.pgShift :=
  ⟨⟨fun _ _ _ _ _ => rfl, fun _ _ _ _ _ _ => rfl⟩, fun _ _ => rfl⟩

/-- Receiving an entry does not move the queue on. -/
theorem way_rcvEntry (d : Descq) (c : CmplInfo) (pidx : ℕ) :
    (rcvEntry d c).1.way pidx = d.way pidx := by
  have hpart : BufFrame Descq.wayPart := ⟨fun _ _ _ => rfl, fun _ _ => rfl, fun _ _ => rfl⟩
  exact way_congr (hpart.rcvEntry d c) (pgShift_frame.rcvEntry d c) pidx

/-- The queue when a handler is asked about a packet: its buffers are gone, and its last one has
its length. -/
def Descq.asked (d : Descq) (c : CmplInfo) (len : ℕ) : Descq :=
  let nr := flNr d.flq.pgShift len
  { d with
    avail := u32Sub d.avail nr
    flq := d.flq.setLastLen (ringIdxIncr c.pidx (u32Sub nr 1) d.conf.rngsz) len }

/-- The first buffer after a packet. -/
def Descq.afterPkt (d : Descq) (c : CmplInfo) (len : ℕ) : ℕ :=
  ringIdxIncr (ringIdxIncr c.pidx (u32Sub (flNr d.flq.pgShift len) 1) d.conf.rngsz) 1 d.conf.rngsz

/-- What the handler of a queue is given with a packet. -/
def Descq.pktArgs (d : Descq) (c : CmplInfo) (len : ℕ) : PktArgs :=
  { len := len, sgcnt := flNr d.flq.pgShift len, slot := c.pidx,
    udd := if d.conf.cmplUddEn then some c.entry else none }

theorem rcvPkt_refused {d : Descq} {fp : PktArgs → ℤ} (h : d.conf.fpDescqC2hPacket = some fp)
    {c : CmplInfo} {len : ℕ} (hrv : fp (d.pktArgs c len) < 0) :
    rcvPkt d c len = (d.asked c len, c, fp (d.pktArgs c len)) := by
  unfold rcvPkt
  simp only [h]
  exact if_pos hrv

theorem rcvPkt_taken {d : Descq} {fp : PktArgs → ℤ} (h : d.conf.fpDescqC2hPacket = some fp)
    {c : CmplInfo} {len : ℕ} (hrv : 0 ≤ fp (d.pktArgs c len)) :
    rcvPkt d c len =
      ({ d.asked c len with
          cidxWrbPend := d.cidxWrb
          flq := { (d.asked c len).flq with
            pidxPend := ringIdxIncr c.pidx (u32Sub (flNr d.flq.pgShift len) 1) d.conf.rngsz } },
        c.withPidx (d.afterPkt c len), 0) := by
  unfold rcvPkt
  simp only [h]
  exact if_neg (not_lt.mpr hrv)

theorem rcvPkt_kept {d : Descq} (h : d.conf.fpDescqC2hPacket = none) (c : CmplInfo) (len : ℕ) :
    (rcvPkt d c len).2 = (c.withPidx (d.afterPkt c len), 0) := by
  unfold rcvPkt
  simp only [h]
  rfl

/-- **An entry that is sound**: the handler answers, and if it takes the entry, the buffers after
it come next. -/
theorem rcvEntry_answer (d : Descq) (pidx : ℕ) (h : (d.way pidx).faulty = false) :
    ((rcvEntry d ((d.way pidx).entry.withPidx pidx)).2.2 < 0 ↔
        ¬ (d.way pidx).Takes d.conf.fpDescqC2hPacket) ∧
      ((d.way pidx).Takes d.conf.fpDescqC2hPacket →
        (rcvEntry d ((d.way pidx).entry.withPidx pidx)).2.1.pidx = (d.way pidx).pidxNext) := by
  generalize hc : (d.way pidx).entry.withPidx pidx = c
  cases hused : (d.way pidx).entry.descUsed with
  | true =>
      have hargs : (d.way pidx).args = d.pktArgs c c.len := (if_pos hused).trans (hc ▸ rfl)
      have hnext : (d.way pidx).pidxNext = d.afterPkt c c.len := (if_pos hused).trans (hc ▸ rfl)
      have heq : rcvEntry d c = rcvPkt d c c.len := if_pos (hc ▸ hused)
      rw [heq, hnext]
      unfold Way.Takes
      rw [hargs]
      cases hfp : d.conf.fpDescqC2hPacket with
      | none =>
          rw [rcvPkt_kept hfp]
          exact ⟨iff_of_false (lt_irrefl 0) (not_not.mpr trivial), fun _ => rfl⟩
      | some fp =>
          by_cases hrv : fp (d.pktArgs c c.len) < 0
          · rw [rcvPkt_refused hfp hrv]
            exact ⟨iff_of_true hrv (not_le.mpr hrv), fun hle => absurd hrv (not_lt.mpr hle)⟩
          · rw [rcvPkt_taken hfp (not_lt.mp hrv)]
            exact ⟨iff_of_false (lt_irrefl 0) (not_not.mpr (not_lt.mp hrv)), fun _ => rfl⟩
  | false =>
      have hno : ¬ (d.way pidx).entry.descUsed = true := hused ▸ Bool.false_ne_true
      -- an entry without a packet is not faulty only where such are enabled
      have hen : d.conf.cmplUddEn = true := by
        unfold Way.faulty at h
        rw [hused, Bool.or_eq_false_iff, Bool.not_false, Bool.true_and, Bool.not_eq_false'] at h
        exact h.2
      have hargs : (d.way pidx).args = { len := 0, sgcnt := 0, slot := 0, udd := some c.entry } :=
        (if_neg hno).trans (hc ▸ rfl)
      have hnext : (d.way pidx).pidxNext = c.pidx := (if_neg hno).trans (hc ▸ rfl)
      have heq : rcvEntry d c = ((rcvUddOnly d c).1, c, (rcvUddOnly d c).2) :=
        (if_neg (hc ▸ hno)).trans (if_pos hen)
      rw [heq, hnext]
      unfold rcvUddOnly Way.Takes
      rw [hargs]
      cases d.conf.fpDescqC2hPacket with
      | none => exact ⟨iff_of_false (lt_irrefl 0) (not_not.mpr trivial), fun _ => rfl⟩
      | some fp => exact ⟨not_le.symm, fun _ => rfl⟩

/-- One turn of the loop of `descq_process_completion_st_c2h`, with the turns after it. -/
def procTurn (rest : Proc → Proc) (p : Proc) : Proc :=
  let (d, cmpl, rv) := parseCmplEntry p.d
  if rv < 0 then { p with d := d, ret := some rv }
  else if cmpl.color ≠ d.color then { p with d := d }
  else
    let (d, cmpl, rv) := rcvEntry d (cmpl.withPidx p.pidx)
    if rv < 0 then { p with d := d }
    else rest { d := wrbNext d, pidx := cmpl.pidx, procCnt := p.procCnt + 1 }

theorem procLoop_succ (n : ℕ) (p : Proc) : procLoop (n + 1) p = procTurn (procLoop n) p := rfl

/-- The loop after an entry that is received. -/
def Proc.received (p : Proc) : Proc where
  d := wrbNext (rcvEntry p.d ((p.d.way p.pidx).entry.withPidx p.pidx)).1
  pidx := (p.d.way p.pidx).pidxNext
  procCnt := p.procCnt + 1

/-- The queue after an entry that is refused. -/
def Proc.refused (p : Proc) : Proc :=
  { p with d := (rcvEntry p.d ((p.d.way p.pidx).entry.withPidx p.pidx)).1 }

/-- The queue is halted. -/
def Proc.halted (p : Proc) : Proc := { p with d := { p.d with err := true }, ret := some einval }

theorem procTurn_halted (rest : Proc → Proc) {p : Proc} (h : (p.d.way p.pidx).faulty = true) :
    procTurn rest p = p.halted := by
  have hparse : parseCmplEntry p.d = ({ p.d with err := true }, (p.d.way p.pidx).entry, einval) :=
    if_pos h
  unfold procTurn
  rw [hparse]
  exact if_pos (by decide)

/-- An entry that is sound: its colour is looked at, and then it is received. -/
theorem procTurn_sound (rest : Proc → Proc) {p : Proc} (h : (p.d.way p.pidx).faulty = false) :
    procTurn rest p =
      if (p.d.way p.pidx).entry.color ≠ p.d.color then p
      else
        let r := rcvEntry p.d ((p.d.way p.pidx).entry.withPidx p.pidx)
        if r.2.2 < 0 then { p with d := r.1 }
        else rest { d := wrbNext r.1, pidx := r.2.1.pidx, procCnt := p.procCnt + 1 } := by
  have hno : ¬ (p.d.way p.pidx).faulty = true := by rw [h]; exact Bool.false_ne_true
  have hparse : parseCmplEntry p.d = (p.d, (p.d.way p.pidx).entry, 0) := if_neg hno
  unfold procTurn
  rw [hparse]
  exact if_neg (lt_irrefl 0)

theorem procTurn_stale (rest : Proc → Proc) {p : Proc} (h : (p.d.way p.pidx).faulty = false)
    (hstale : (p.d.way p.pidx).Stale) : procTurn rest p = p :=
  (procTurn_sound rest h).trans (if_pos hstale)

theorem procTurn_refused (rest : Proc → Proc) {p : Proc} (h : (p.d.way p.pidx).Good)
    (hno : ¬ (p.d.way p.pidx).Takes p.d.conf.fpDescqC2hPacket) : procTurn rest p = p.refused := by
  obtain ⟨hans, -⟩ := rcvEntry_answer p.d p.pidx h.sound
  refine (procTurn_sound rest h.sound).trans ((if_neg h.fresh).trans ?_)
  exact if_pos (hans.mpr hno)

theorem procTurn_received (rest : Proc → Proc) {p : Proc} (h : (p.d.way p.pidx).Good)
    (htake : (p.d.way p.pidx).Takes p.d.conf.fpDescqC2hPacket) :
    procTurn rest p = rest p.received := by
  obtain ⟨hans, hpidx⟩ := rcvEntry_answer p.d p.pidx h.sound
  refine (procTurn_sound rest h.sound).trans ((if_neg h.fresh).trans ?_)
  refine (if_neg (fun hneg => hans.mp hneg htake)).trans ?_
  rw [hpidx htake]
  rfl

/-- **One turn of the loop**: an error halts the queue, a slot that is not new or not taken ends
the loop, and after any other entry the loop goes on from the next place. -/
inductive TurnCase (p : Proc) : Prop where
  | halted (hfault : (p.d.way p.pidx).faulty = true) (heq : ∀ rest, procTurn rest p = p.halted)
  | stale (hsound : (p.d.way p.pidx).faulty = false) (hstale : (p.d.way p.pidx).Stale)
      (heq : ∀ rest, procTurn rest p = p)
  | refused (hgood : (p.d.way p.pidx).Good)
      (hno : ¬ (p.d.way p.pidx).Takes p.d.conf.fpDescqC2hPacket)
      (heq : ∀ rest, procTurn rest p = p.refused)
  | received (hgood : (p.d.way p.pidx).Good)
      (htake : (p.d.way p.pidx).Takes p.d.conf.fpDescqC2hPacket)
      (heq : ∀ rest, procTurn rest p = rest p.received)

theorem procTurn_cases (p : Proc) : TurnCase p := by
  cases hfault : (p.d.way p.pidx).faulty with
  | true => exact .halted hfault (fun rest => procTurn_halted rest hfault)
  | false =>
      by_cases hstale : (p.d.way p.pidx).Stale
      · exact .stale hfault hstale (fun rest => procTurn_stale rest hfault hstale)
      by_cases htake : (p.d.way p.pidx).Takes p.d.conf.fpDescqC2hPacket
      · exact .received ⟨hstale, hfault⟩ htake
          (fun rest => procTurn_received rest ⟨hstale, hfault⟩ htake)
      · exact .refused ⟨hstale, hfault⟩ htake
          (fun rest => procTurn_refused rest ⟨hstale, hfault⟩ htake)

/-- The place after an entry that is received. -/
theorem way_received (p : Proc) : p.received.d.way p.received.pidx = (p.d.way p.pidx).next := by
  unfold Proc.received
  generalize hc : (p.d.way p.pidx).entry.withPidx p.pidx = c
  have hway := way_rcvEntry p.d c p.pidx
  rw [way_wrbNext _ p.pidx, hway]
  rw [hway]

theorem conf_received (p : Proc) : p.received.d.conf = p.d.conf := by
  have hconf : LoopFrame Descq.conf :=
    ⟨⟨fun _ _ _ => rfl, fun _ _ => rfl, fun _ _ => rfl⟩, fun _ _ => rfl, fun _ _ _ _ => rfl⟩
  unfold Proc.received
  exact (hconf.wrbNext _).trans (hconf.rcvEntry _ _)

/-! ## The colour first -/

/-- The loop of `descq_process_completion_st_c2h`, were the colour looked at before an entry is
judged: it does nothing with a slot that is not new. -/
def procLoopNew : ℕ → Proc → Proc
  | 0, p => p
  | n + 1, p =>
      if (p.d.way p.pidx).entry.color ≠ p.d.color then p else procTurn (procLoopNew n) p

/-- `descq_process_completion_st_c2h` around a loop. -/
def processWith (loop : ℕ → Proc → Proc) (d : Descq) (budget : ℤ) (fill : ℕ → FillOutcome) :
    Descq × ℤ :=
  if d.err then (d, 0)
  else if d.conf.fpDescqC2hPacket.isNone && d.pendList.isEmpty && d.workList.isEmpty then
    (d, 0)
  else
    let pidxWrb := d.descWrb.wbPidx
    let pend := ringIdxDelta pidxWrb d.cidxWrb d.conf.rngszWrb
    if pend = 0 then (d, 0)
    else
      let p := loop (procBudget budget pend) { d := d, pidx := d.pidx }
      match p.ret with
      | some rv => (p.d, rv)
      | none => (procEnd p pidxWrb d.flq.pidxPend fill, 0)

theorem processWith_procLoop : processWith procLoop = descqProcessCompletionStC2h := rfl

/-- The number of entries a call may go through. -/
def Descq.entriesOf (d : Descq) (budget : ℤ) : ℕ :=
  procBudget budget (ringIdxDelta d.descWrb.wbPidx d.cidxWrb d.conf.rngszWrb)

/-- A call goes through the entries there are. -/
structure Descq.Serves (d : Descq) : Prop where
  err : d.err = false
  busy : (d.conf.fpDescqC2hPacket.isNone && d.pendList.isEmpty && d.workList.isEmpty) = false
  pend : ringIdxDelta d.descWrb.wbPidx d.cidxWrb d.conf.rngszWrb ≠ 0

theorem processWith_idle (loop : ℕ → Proc → Proc) {d : Descq} (h : ¬ d.Serves) (budget : ℤ)
    (fill : ℕ → FillOutcome) : processWith loop d budget fill = (d, 0) := by
  unfold processWith
  cases herr : d.err with
  | true => exact if_pos rfl
  | false =>
      rw [if_neg Bool.false_ne_true]
      cases hbusy : d.conf.fpDescqC2hPacket.isNone && d.pendList.isEmpty && d.workList.isEmpty with
      | true => exact if_pos rfl
      | false =>
          rw [if_neg Bool.false_ne_true]
          refine if_pos ?_
          by_contra hpend
          exact h ⟨herr, hbusy, hpend⟩

/-- What is left of a call after its loop. -/
def Proc.finish (p : Proc) (pidxWrb pidxPend : ℕ) (fill : ℕ → FillOutcome) : Descq × ℤ :=
  match p.ret with
  | some rv => (p.d, rv)
  | none => (procEnd p pidxWrb pidxPend fill, 0)

theorem processWith_serves (loop : ℕ → Proc → Proc) {d : Descq} (h : d.Serves) (budget : ℤ)
    (fill : ℕ → FillOutcome) :
    processWith loop d budget fill =
      (loop (d.entriesOf budget) { d := d, pidx := d.pidx }).finish d.descWrb.wbPidx
        d.flq.pidxPend fill := by
  unfold processWith
  rw [h.err, h.busy, if_neg Bool.false_ne_true, if_neg Bool.false_ne_true]
  exact if_neg h.pend

/-- The loop comes to a slot that is not new, and the entry in it is taken for an error. -/
def Way.StaleFault (w : Way) (fp : Option (PktArgs → ℤ)) (n : ℕ) : Prop :=
  ∃ k < n, w.ComesTo fp k ∧ (Way.next^[k] w).Stale ∧ (Way.next^[k] w).faulty = true

/-- By the first entry. -/
theorem Way.staleFault_succ {w : Way} {fp : Option (PktArgs → ℤ)} {n : ℕ} :
    w.StaleFault fp (n + 1) ↔
      (w.Stale ∧ w.faulty = true) ∨ ((w.Good ∧ w.Takes fp) ∧ w.next.StaleFault fp n) := by
  constructor
  · rintro ⟨k, hk, hcomes, hbad⟩
    cases k with
    | zero => exact .inl hbad
    | succ k =>
        obtain ⟨hgood, hnext⟩ := Way.comesTo_succ.mp hcomes
        exact .inr ⟨hgood, k, Nat.lt_of_succ_lt_succ hk, hnext, hbad⟩
  · rintro (hbad | ⟨hgood, k, hk, hcomes, hbad⟩)
    · exact ⟨0, n.succ_pos, w.comesTo_zero fp, hbad⟩
    · exact ⟨k + 1, Nat.succ_lt_succ hk, Way.comesTo_succ.mpr ⟨hgood, hcomes⟩, hbad⟩

/-- **The two loops.**  They are the same unless the loop comes to such a slot; then the one halts
the queue, and the other one just ends. -/
theorem procLoop_new (n : ℕ) (p : Proc) (hret : p.ret = none) :
    ((p.d.way p.pidx).StaleFault p.d.conf.fpDescqC2hPacket n →
        (procLoop n p).ret = some einval ∧ (procLoopNew n p).ret = none) ∧
      (¬ (p.d.way p.pidx).StaleFault p.d.conf.fpDescqC2hPacket n →
        procLoop n p = procLoopNew n p) := by
  induction n generalizing p with
  | zero => exact ⟨fun ⟨k, hk, _⟩ => absurd hk (Nat.not_lt_zero k), fun _ => rfl⟩
  | succ n ih =>
      rw [Way.staleFault_succ, procLoop_succ, procLoopNew]
      -- an entry is faulty, stale, refused, or received and the next one is looked at
      cases procTurn_cases p with
      | halted hfault heq =>
          rw [heq, heq]
          by_cases hstale : (p.d.way p.pidx).Stale
          · rw [if_pos (show (p.d.way p.pidx).entry.color ≠ p.d.color from hstale)]
            exact ⟨fun _ => ⟨rfl, hret⟩, fun hno => absurd (.inl ⟨hstale, hfault⟩) hno⟩
          · rw [if_neg (show ¬ (p.d.way p.pidx).entry.color ≠ p.d.color from hstale)]
            refine ⟨?_, fun _ => rfl⟩
            rintro (⟨hs, -⟩ | ⟨⟨hgood, -⟩, -⟩)
            · exact absurd hs hstale
            · exact absurd (hgood.sound.symm.trans hfault) Bool.false_ne_true
      | stale hsound hstale heq =>
          rw [heq, if_pos (show (p.d.way p.pidx).entry.color ≠ p.d.color from hstale)]
          refine ⟨?_, fun _ => rfl⟩
          rintro (⟨-, hfault⟩ | ⟨⟨hgood, -⟩, -⟩)
          · exact absurd (hsound.symm.trans hfault) Bool.false_ne_true
          · exact absurd hstale hgood.fresh
      | refused hgood hno heq =>
          rw [heq, heq,
            if_neg (show ¬ (p.d.way p.pidx).entry.color ≠ p.d.color from hgood.fresh)]
          refine ⟨?_, fun _ => rfl⟩
          rintro (⟨hs, -⟩ | ⟨⟨-, htake⟩, -⟩)
          · exact absurd hs hgood.fresh
          · exact absurd htake hno
      | received hgood htake heq =>
          have hlater : ∀ P : Prop, (((p.d.way p.pidx).Good ∧
              (p.d.way p.pidx).Takes p.d.conf.fpDescqC2hPacket) ∧ P) ↔ P :=
            fun P => and_iff_right ⟨hgood, htake⟩
          rw [heq, heq,
            if_neg (show ¬ (p.d.way p.pidx).entry.color ≠ p.d.color from hgood.fresh),
            or_iff_right (fun h => hgood.fresh h.1), hlater]
          have hnext := ih p.received rfl
          rw [way_received, conf_received] at hnext
          exact hnext

/-- **Slots that are not new are left alone** in a call just when the loop does not come to one
with an entry that it takes for an error: for every content of the completion ring, every index in
its status and every handler. -/
theorem stale_ignored_iff (d : Descq) (budget : ℤ) (fill : ℕ → FillOutcome) :
    descqProcessCompletionStC2h d budget fill = processWith procLoopNew d budget fill ↔
      ¬ (d.Serves ∧ (d.way d.pidx).StaleFault d.conf.fpDescqC2hPacket (d.entriesOf budget)) := by
  rw [← processWith_procLoop]
  by_cases hserves : d.Serves
  swap
  · rw [processWith_idle _ hserves, processWith_idle _ hserves]
    exact iff_of_true rfl (fun h => hserves h.1)
  obtain ⟨hhalt, hsame⟩ := procLoop_new (d.entriesOf budget) { d := d, pidx := d.pidx } rfl
  rw [processWith_serves _ hserves, processWith_serves _ hserves, not_and]
  by_cases hfault : (d.way d.pidx).StaleFault d.conf.fpDescqC2hPacket (d.entriesOf budget)
  · refine iff_of_false ?_ (fun h => h hserves hfault)
    obtain ⟨hret, hret'⟩ := hhalt hfault
    unfold Proc.finish
    rw [hret, hret']
    exact fun heq => absurd (show einval = 0 from congrArg Prod.snd heq) (by decide)
  · rw [hsame hfault]
    exact iff_of_true rfl (fun _ => hfault)

/-- A queue just started, whose status has an entry that has not been written. -/
def aheadOfEntries : Descq :=
  { startedUp.q with descWrb := { startedUp.q.descWrb with wbPidx := 1 } }

/-- **A slot that was never written halts the queue.**  It is all zero, so its colour is not the
current one, and the queue has no user data. -/
theorem stale_slot_halts :
    (aheadOfEntries.way aheadOfEntries.pidx).Stale ∧
      (descqProcessCompletionStC2h aheadOfEntries 0 newPages).1.err = true ∧
      (descqProcessCompletionStC2h aheadOfEntries 0 newPages).2 = einval ∧
      descqProcessCompletionStC2h aheadOfEntries 0 newPages ≠
        processWith procLoopNew aheadOfEntries 0 newPages := by
  have hstale : (aheadOfEntries.way aheadOfEntries.pidx).Stale := by
    show (cmplInfo 0).color ≠ aheadOfEntries.color
    decide +kernel
  have hret : (descqProcessCompletionStC2h aheadOfEntries 0 newPages).2 = einval := by
    decide +kernel
  refine ⟨hstale, by decide +kernel, hret, fun heq => ?_⟩
  have hno : (processWith procLoopNew aheadOfEntries 0 newPages).2 = 0 := by decide +kernel
  exact absurd (hret.symm.trans ((congrArg Prod.snd heq).trans hno)) (by decide)

end Qdma
