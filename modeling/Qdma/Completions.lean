/-
# Going through completion entries

Completion entries are gone through exactly once and in the order they were written, on a
queue with an upper-layer packet handler as on one without, whatever the budgets, the
handler's answers and the refills (`completion_once`).

`procLog` is the trace of the loop of `descq_process_completion_st_c2h`: the place and the
first word of each entry it goes through.
-/
import Qdma.FreeListLaw
import Qdma.QueueRun

namespace Qdma

open RingIndex Exec

/-! ## The trace -/

/-- The entries the loop goes through, in order: where each stands and its first word. -/
def procLog : ℕ → Proc → List (ℕ × ℕ)
  | 0, _ => []
  | n + 1, p =>
      let (d, cmpl, rv) := parseCmplEntry p.d
      if rv < 0 then []
      else if cmpl.color ≠ d.color then []
      else
        let (d', cmpl, rv) := rcvEntry d (cmpl.withPidx p.pidx)
        if rv < 0 then []
        else (d.descWrbCur, d.descWrb.mem d.descWrbCur) ::
          procLog n { d := wrbNext d', pidx := cmpl.pidx, procCnt := p.procCnt + 1 }

/-- The entries a call of `descq_process_completion_st_c2h` goes through. -/
def processed (d : Descq) (budget : ℤ) : List (ℕ × ℕ) :=
  if d.err then []
  else if d.conf.fpDescqC2hPacket.isNone && d.pendList.isEmpty && d.workList.isEmpty then []
  else
    procLog (procBudget budget (ringIdxDelta d.descWrb.wbPidx d.cidxWrb d.conf.rngszWrb))
      { d := d, pidx := d.pidx }

/-- A queue with its device and the entries gone through so far. -/
structure Cx where
  s : Rx
  log : List (ℕ × ℕ) := []

/-- A step of a queue without handler, or of the device; or a service call on a queue with
handler, which answers as `fp` does in this call. -/
inductive CxLabel where
  | rx (l : RxLabel)
  | upper (budget : ℤ) (fill : ℕ → FillOutcome) (fp : PktArgs → ℤ)

/-- The handler answers as `fp`. -/
def Rx.withHandler (s : Rx) (fp : PktArgs → ℤ) : Rx :=
  { s with q := { s.q with conf := { s.q.conf with fpDescqC2hPacket := some fp } } }

/-- One step. -/
def Cx.step (c : Cx) : CxLabel → Cx
  | .rx (.service budget fill) =>
      { s := c.s.step (.service budget fill), log := c.log ++ processed c.s.q budget }
  | .rx l => { c with s := c.s.step l }
  | .upper budget fill fp =>
      { s := (c.s.withHandler fp).step (.service budget fill)
        log := c.log ++ processed (c.s.withHandler fp).q budget }

/-- The step is one of the device. -/
def RxLabel.Device : RxLabel → Prop
  | .dma _ _ => True
  | .publish _ => True
  | _ => False

/-- Callers and service calls are those of the kind of the queue. -/
def CxLegal (c : Cx) : CxLabel → Prop
  | .rx l => RxLegal c.s l ∧ (l.Device ∨ c.s.q.conf.fpDescqC2hPacket.isNone)
  | .upper _ _ _ => c.s.q.conf.fpDescqC2hPacket.isSome

instance (l : RxLabel) : Decidable l.Device :=
  match l with
  | .dma _ _ | .publish _ => inferInstanceAs (Decidable True)
  | .submit _ | .pend _ | .wait _ | .packetRead _ | .service _ _ =>
      inferInstanceAs (Decidable False)

instance (c : Cx) (l : CxLabel) : Decidable (CxLegal c l) :=
  match l with
  | .rx _ => inferInstanceAs (Decidable (_ ∧ _))
  | .upper _ _ _ => inferInstanceAs (Decidable (_ = _))

/-! ## The completion side of a queue -/

/-- The part of a queue that finds its way through the completion ring. -/
def Descq.cmplPart (d : Descq) : QueueConf × Bool × Bool × ℕ × ℕ × ℕ × WrbRing :=
  (d.conf, d.err, d.color, d.cidxWrb, d.descWrbCur, d.wbEntryLen, d.descWrb)

theorem CmplRing.of_cmplPart {q q' : Descq} {sent : List Cmpl} {r : ℕ} (h : CmplRing q sent r)
    (hpart : q'.cmplPart = q.cmplPart) : CmplRing q' sent r := by
  have hconf : q'.conf = q.conf := congrArg (·.1) hpart
  have hcolor : q'.color = q.color := congrArg (·.2.2.1) hpart
  have hcidx : q'.cidxWrb = q.cidxWrb := congrArg (·.2.2.2.1) hpart
  have hcur : q'.descWrbCur = q.descWrbCur := congrArg (·.2.2.2.2.1) hpart
  have hlen : q'.wbEntryLen = q.wbEntryLen := congrArg (·.2.2.2.2.2.1) hpart
  have hwrb : q'.descWrb = q.descWrb := congrArg (·.2.2.2.2.2.2) hpart
  exact h.congr hconf hcidx hcur hlen hcolor (congrArg WrbRing.mem hwrb)

/-- How far the driver has got is determined within a lap. -/
theorem CmplRing.unique {q : Descq} {sent : List Cmpl} {a b : ℕ} (ha : CmplRing q sent a)
    (hb : CmplRing q sent b) (hlt : a < b + q.conf.rngszWrb) (hlt' : b < a + q.conf.rngszWrb) :
    a = b := by
  have hmod : a % q.conf.rngszWrb = b % q.conf.rngszWrb := ha.cidx.symm.trans hb.cidx
  rcases Nat.lt_trichotomy a b with h | h | h
  · exact absurd hmod (mod_ne_mod h hlt')
  · exact h
  · exact absurd hmod.symm (mod_ne_mod h hlt)

/-- Serving requests leaves the completion side alone. -/
theorem cmplPart_serveFrame : ServeFrame Descq.cmplPart :=
  ⟨⟨⟨fun _ _ _ => rfl, fun _ _ => rfl, fun _ _ => rfl⟩, fun _ _ => rfl, fun _ _ => rfl,
    fun _ _ => rfl⟩, fun _ _ _ _ => rfl, fun _ _ _ => rfl⟩

/-- Receiving rings no doorbell. -/
theorem regs_bufFrame : BufFrame Descq.regs :=
  ⟨fun _ _ _ => rfl, fun _ _ => rfl, fun _ _ => rfl⟩

theorem pend_markLoop (c n i : ℕ) (d : Descq) :
    (markLoop c n i d).cidxWrbPend = d.cidxWrbPend := by
  induction n generalizing i d with
  | zero => rfl
  | succ n ih => exact ih (d.flq.next i) (d.markValid i c)

/-- The handler, if there is one, takes every packet. -/
def Descq.Accepts (d : Descq) : Prop := ∀ fp ∈ d.conf.fpDescqC2hPacket, ∀ a, 0 ≤ fp a

/-- A packet received leaves `cidx_wrb_pend` as it is or makes it the index of its entry; it
is not refused by a handler that takes all. -/
theorem rcvPkt_pend (d : Descq) (cmpl : CmplInfo) (len : ℕ) :
    ((rcvPkt d cmpl len).1.cidxWrbPend = d.cidxWrbPend ∨
        (rcvPkt d cmpl len).1.cidxWrbPend = d.cidxWrb) ∧
      (d.Accepts → ¬ (rcvPkt d cmpl len).2.2 < 0) := by
  unfold rcvPkt Descq.Accepts
  simp only
  cases d.conf.fpDescqC2hPacket with
  | none => exact ⟨.inl (pend_markLoop _ _ _ _), fun _ => lt_irrefl 0⟩
  | some fp =>
      simp only
      generalize (if d.conf.cmplUddEn then some cmpl.entry else none) = udd
      split_ifs with hrv
      · exact ⟨.inl rfl, fun h => absurd (h fp rfl _) (not_le.mpr hrv)⟩
      · exact ⟨.inr rfl, fun _ => lt_irrefl 0⟩

theorem rcvEntry_pend (d : Descq) (cmpl : CmplInfo) :
    ((rcvEntry d cmpl).1.cidxWrbPend = d.cidxWrbPend ∨
        (rcvEntry d cmpl).1.cidxWrbPend = d.cidxWrb) ∧
      (d.Accepts → ¬ (rcvEntry d cmpl).2.2 < 0) := by
  unfold rcvEntry rcvUddOnly
  split_ifs
  · exact rcvPkt_pend d cmpl cmpl.len
  · simp only
    unfold Descq.Accepts
    cases d.conf.fpDescqC2hPacket with
    | none => exact ⟨.inl rfl, fun _ => lt_irrefl 0⟩
    | some fp => exact ⟨.inl rfl, fun h => not_lt.mpr (h fp rfl _)⟩
  · exact ⟨.inl rfl, fun _ => lt_irrefl 0⟩

/-! ## The loop -/

/-- The first `r` entries: where each stands and its first word. -/
def firstEntries (n entryLen : ℕ) (sent : List Cmpl) (r : ℕ) : List (ℕ × ℕ) :=
  (sent.take r).mapIdx (fun k c => (k % n * entryLen, c.word))

theorem firstEntries_succ (n entryLen : ℕ) {sent : List Cmpl} {r : ℕ} (hr : r < sent.length) :
    firstEntries n entryLen sent (r + 1)
      = firstEntries n entryLen sent r ++ [(r % n * entryLen, sent[r].word)] := by
  unfold firstEntries
  rw [← List.take_concat_get' sent r hr, List.mapIdx_concat, List.length_take,
    Nat.min_eq_left hr.le]

theorem length_firstEntries (n entryLen : ℕ) {sent : List Cmpl} {r : ℕ} (hr : r ≤ sent.length) :
    (firstEntries n entryLen sent r).length = r := by
  unfold firstEntries
  rw [List.length_mapIdx, List.length_take, Nat.min_eq_left hr]

/-- A trace that goes on by `j` entries. -/
theorem length_of_firstEntries {n entryLen : ℕ} {sent : List Cmpl} {r j : ℕ} {log : List (ℕ × ℕ)}
    (hj : r + j ≤ sent.length)
    (h : firstEntries n entryLen sent (r + j) = firstEntries n entryLen sent r ++ log) :
    log.length = j := by
  have hl := congrArg List.length h
  rw [List.length_append, length_firstEntries _ _ hj, length_firstEntries _ _ (by omega)] at hl
  omega

/-- What `j` rounds of the loop do on the completion side. -/
structure Gone (d d' : Descq) (sent : List Cmpl) (r j : ℕ) : Prop where
  ring : CmplRing d' sent (r + j)
  conf : d'.conf = d.conf
  err : d'.err = d.err
  wbEntryLen : d'.wbEntryLen = d.wbEntryLen
  descWrb : d'.descWrb = d.descWrb
  regs : d'.regs = d.regs
  pend : ∀ v ≤ r, d.cidxWrbPend = v % d.conf.rngszWrb →
    ∃ v', v ≤ v' ∧ v' ≤ r + j ∧ d'.cidxWrbPend = v' % d.conf.rngszWrb

/-- **One round.** -/
theorem Gone.entry {d : Descq} {sent : List Cmpl} {r : ℕ} (h : CmplRing d sent r)
    (hr : r < sent.length) (cmpl : CmplInfo) :
    Gone d (rcvEntry d cmpl).1 sent r 0 ∧ Gone d (wrbNext (rcvEntry d cmpl).1) sent r 1 := by
  have hpart := cmplPart_serveFrame.rcvEntry d cmpl
  have hregs := regs_bufFrame.rcvEntry d cmpl
  have hpend := (rcvEntry_pend d cmpl).1
  generalize (rcvEntry d cmpl).1 = d1 at hpart hregs hpend
  have hconf : d1.conf = d.conf := congrArg (·.1) hpart
  have herr : d1.err = d.err := congrArg (·.2.1) hpart
  have hcolor : d1.color = d.color := congrArg (·.2.2.1) hpart
  have hcidx : d1.cidxWrb = d.cidxWrb := congrArg (·.2.2.2.1) hpart
  have hcur : d1.descWrbCur = d.descWrbCur := congrArg (·.2.2.2.2.1) hpart
  have hlen : d1.wbEntryLen = d.wbEntryLen := congrArg (·.2.2.2.2.2.1) hpart
  have hwrb : d1.descWrb = d.descWrb := congrArg (·.2.2.2.2.2.2) hpart
  have hv : ∀ v ≤ r, d.cidxWrbPend = v % d.conf.rngszWrb →
      ∃ v', v ≤ v' ∧ v' ≤ r ∧ d1.cidxWrbPend = v' % d.conf.rngszWrb := by
    intro v hle hv
    rcases hpend with hp | hp
    · exact ⟨v, le_rfl, hle, hp.trans hv⟩
    · exact ⟨r, hle, le_rfl, hp.trans h.cidx⟩
  have hnext : (wrbNext d1).conf = d1.conf ∧ (wrbNext d1).err = d1.err ∧
      (wrbNext d1).wbEntryLen = d1.wbEntryLen ∧ (wrbNext d1).descWrb = d1.descWrb ∧
      (wrbNext d1).regs = d1.regs ∧ (wrbNext d1).cidxWrbPend = d1.cidxWrbPend := by
    unfold wrbNext
    split_ifs <;> exact ⟨rfl, rfl, rfl, rfl, rfl, rfl⟩
  obtain ⟨n1, n2, n3, n4, n5, n6⟩ := hnext
  refine ⟨⟨h.of_cmplPart hpart, hconf, herr, hlen, hwrb, hregs, hv⟩,
    ⟨h.next hr hconf hcidx hcur hcolor hlen hwrb, n1.trans hconf, n2.trans herr, n3.trans hlen,
      n4.trans hwrb, n5.trans hregs, fun v hle hvv => ?_⟩⟩
  obtain ⟨v', h1, h2, h3⟩ := hv v hle hvv
  exact ⟨v', h1, by omega, n6.trans h3⟩

theorem Gone.trans {a b c : Descq} {sent : List Cmpl} {r j k : ℕ} (h : Gone a b sent r j)
    (h' : Gone b c sent (r + j) k) : Gone a c sent r (j + k) := by
  refine ⟨Nat.add_assoc r j k ▸ h'.ring, h'.conf.trans h.conf, h'.err.trans h.err,
    h'.wbEntryLen.trans h.wbEntryLen, h'.descWrb.trans h.descWrb, h'.regs.trans h.regs, ?_⟩
  intro v hle hv
  obtain ⟨v', h1, h2, h3⟩ := h.pend v hle hv
  obtain ⟨v'', h4, h5, h6⟩ := h'.pend v' h2 (by rw [h.conf]; exact h3)
  refine ⟨v'', h1.trans h4, by omega, ?_⟩
  rw [h6, h.conf]

/-- **The loop** goes through entries in order, all it is told to unless the handler refuses
one. -/
theorem procLoop_gone {sent : List Cmpl} (m : ℕ) {r : ℕ} {p : Proc} (h : CmplRing p.d sent r)
    (hret : p.ret = none) (hm : r + m ≤ sent.length) :
    ∃ j ≤ m, Gone p.d (procLoop m p).d sent r j ∧ (procLoop m p).ret = none ∧
      (procLoop m p).procCnt = p.procCnt + j ∧
      firstEntries p.d.conf.rngszWrb p.d.wbEntryLen sent (r + j)
        = firstEntries p.d.conf.rngszWrb p.d.wbEntryLen sent r ++ procLog m p ∧
      (p.d.Accepts → j = m) := by
  induction m generalizing r p with
  | zero =>
      refine ⟨0, le_rfl, ⟨h, rfl, rfl, rfl, rfl, rfl, ?_⟩, hret, rfl,
        (List.append_nil _).symm, fun _ => rfl⟩
      exact fun v hle hv => ⟨v, le_rfl, hle, hv⟩
  | succ m ih =>
      have hr : r < sent.length := by omega
      obtain ⟨hparse, hcolor⟩ := h.parse hr
      obtain ⟨hstay, hgo⟩ := Gone.entry h hr ((cmplInfo sent[r].word).withPidx p.pidx)
      have hacc := (rcvEntry_pend p.d ((cmplInfo sent[r].word).withPidx p.pidx)).2
      rw [procLoop, procLog]
      simp only [hparse, lt_irrefl, if_false, hcolor, ne_eq, not_true_eq_false]
      by_cases hrv : (rcvEntry p.d ((cmplInfo sent[r].word).withPidx p.pidx)).2.2 < 0
      · rw [if_pos hrv, if_pos hrv]
        -- the handler refuses the entry: the driver stays at it
        exact ⟨0, Nat.zero_le _, hstay, hret, rfl, (List.append_nil _).symm,
          fun ha => absurd hrv (hacc ha)⟩
      · rw [if_neg hrv, if_neg hrv]
        obtain ⟨j, hj, hgone, hret', hcnt, hlog, hall⟩ := ih (p := {
            d := wrbNext (rcvEntry p.d ((cmplInfo sent[r].word).withPidx p.pidx)).1
            pidx := (rcvEntry p.d ((cmplInfo sent[r].word).withPidx p.pidx)).2.1.pidx
            procCnt := p.procCnt + 1 }) hgo.ring rfl (by omega)
        simp only [hgo.conf, hgo.wbEntryLen] at hlog
        refine ⟨j + 1, by omega, ?_, hret', ?_, ?_, ?_⟩
        · rw [Nat.add_comm j 1]
          exact hgo.trans hgone
        · rw [hcnt]
          exact Nat.add_right_comm _ _ _
        · have hmem := (h.entry r hr le_rfl).1
          rw [Nat.add_comm j 1, ← Nat.add_assoc, hlog, firstEntries_succ _ _ hr,
            List.append_assoc, h.cur, hmem]
          rfl
        · intro ha
          rw [hall (by unfold Descq.Accepts at ha ⊢; rw [hgo.conf]; exact ha)]

/-! ## A service call -/

/-- A call would serve entries: there is a handler, or a request is waiting. -/
def Descq.Ready (d : Descq) : Prop :=
  d.conf.fpDescqC2hPacket.isSome ∨ d.pendList ≠ [] ∨ d.workList ≠ []

/-- What a service call does on the completion side, where it went through `j` entries; `d1`
is the queue after its loop. -/
structure Call (q d1 q' : Descq) (sent : List Cmpl) (r j : ℕ) : Prop where
  gone : Gone q d1 sent r j
  cmplPart : q'.cmplPart = d1.cmplPart
  pend : q.conf.fpDescqC2hPacket.isSome → q'.cidxWrbPend = d1.cidxWrbPend ∧
    (q'.regs.wrbCidx = q.regs.wrbCidx ∨ q'.regs.wrbCidx = d1.cidxWrbPend)

/-- The configuration of the completion side, and its error flag. -/
structure KeepsRing (q q' : Descq) : Prop where
  conf : q'.conf = q.conf
  wbEntryLen : q'.wbEntryLen = q.wbEntryLen
  err : q'.err = q.err

theorem Call.keeps {q d1 q' : Descq} {sent : List Cmpl} {r j : ℕ} (h : Call q d1 q' sent r j) :
    KeepsRing q q' :=
  ⟨(congrArg (·.1) h.cmplPart).trans h.gone.conf,
    (congrArg (·.2.2.2.2.2.1) h.cmplPart).trans h.gone.wbEntryLen,
    (congrArg (·.2.1) h.cmplPart).trans h.gone.err⟩

theorem pend_postFrame : PostFrame Descq.cidxWrbPend :=
  ⟨fun _ _ _ => rfl, fun _ _ => rfl, fun _ _ => rfl⟩

/-- **A service call** goes through the next entries, all that are due if it is ready and the
handler takes every packet. -/
theorem process_call {q : Descq} {sent : List Cmpl} {r w : ℕ} (h : CmplRing q sent r)
    (hwb : q.descWrb.wbPidx = w % q.conf.rngszWrb) (hrw : r ≤ w) (hws : w ≤ sent.length)
    (hlap : w < r + q.conf.rngszWrb) (budget : ℤ) (fill : ℕ → FillOutcome) :
    ∃ j d1, j ≤ procBudget budget (w - r) ∧ r + j ≤ w ∧
      Call q d1 (descqProcessCompletionStC2h q budget fill).1 sent r j ∧
      firstEntries q.conf.rngszWrb q.wbEntryLen sent (r + j)
        = firstEntries q.conf.rngszWrb q.wbEntryLen sent r ++ processed q budget ∧
      (q.err = false → q.Ready → q.Accepts → j = procBudget budget (w - r)) := by
  have hn := h.pos
  have hmax := h.le_max
  have hpend : ringIdxDelta q.descWrb.wbPidx q.cidxWrb q.conf.rngszWrb = w - r := by
    rw [hwb, h.cidx, ringIdxDelta_mod (by omega) hrw hlap]
  have hle : procBudget budget (w - r) ≤ w - r := by
    unfold procBudget
    split_ifs <;> omega
  -- an early return handles nothing and publishes nothing
  have hidle : Call q q q sent r 0 :=
    ⟨⟨h, rfl, rfl, rfl, rfl, rfl, fun v hv hp => ⟨v, le_rfl, hv, hp⟩⟩, rfl,
      fun _ => ⟨rfl, .inl rfl⟩⟩
  unfold descqProcessCompletionStC2h processed
  simp only [hpend]
  by_cases herr : q.err = true
  · rw [if_pos herr, if_pos herr]
    refine ⟨0, q, Nat.zero_le _, hrw, hidle, (List.append_nil _).symm, fun he => ?_⟩
    rw [herr] at he
    exact absurd he (by decide)
  rw [if_neg herr, if_neg herr]
  by_cases hready : (q.conf.fpDescqC2hPacket.isNone && q.pendList.isEmpty && q.workList.isEmpty)
      = true
  · rw [if_pos hready, if_pos hready]
    refine ⟨0, q, Nat.zero_le _, hrw, hidle, (List.append_nil _).symm, fun _ hr => ?_⟩
    rw [Bool.and_eq_true, Bool.and_eq_true] at hready
    rcases hr with hr | hr | hr
    · rw [← Option.not_isNone, hready.1.1] at hr
      exact absurd hr (by decide)
    · exact absurd (List.isEmpty_iff.mp hready.1.2) hr
    · exact absurd (List.isEmpty_iff.mp hready.2) hr
  rw [if_neg hready, if_neg hready]
  obtain ⟨j, hj, hgone, hret, hcnt, hlog, hall⟩ := procLoop_gone (procBudget budget (w - r))
    (p := { d := q, pidx := q.pidx }) h rfl (by omega)
  by_cases h0 : w - r = 0
  · rw [if_pos h0]
    have hj0 : j = 0 := by omega
    rw [hj0] at hlog
    exact ⟨0, q, Nat.zero_le _, hrw, hidle, hlog, fun _ _ _ => by omega⟩
  · rw [if_neg h0, hret]
    generalize procLoop (procBudget budget (w - r)) { d := q, pidx := q.pidx } = p
      at hgone hret hcnt
    refine ⟨j, p.d, hj, by omega, ⟨hgone, cmplPart_serveFrame.procEnd _ _ _ _, fun hup => ?_⟩,
      hlog, fun _ _ ha => hall ha⟩
    -- with a packet handler the end of the call only refills and rings
    have hnone : p.d.conf.fpDescqC2hPacket.isNone = false := by
      rw [hgone.conf, ← Option.not_isSome, hup]
      rfl
    have hpost : ∀ d, (procRefill d q.flq.pidxPend fill).cidxWrbPend = d.cidxWrbPend :=
      fun d => pend_postFrame.procRefill d _ fill
    unfold procEnd
    simp only [hnone, Bool.false_eq_true, if_false]
    split_ifs
    · exact ⟨hpost _, .inr (hpost _)⟩
    · exact ⟨rfl, .inl (congrArg Regs.wrbCidx hgone.regs)⟩

/-! ## The law of a queue with handler -/

/-- **The completion side of a queue with handler**, with `r` entries gone through.  The
doorbell was last told of the entries before `u`, and will be of those before `v`. -/
structure UpInv (s : Rx) (r : ℕ) : Prop where
  handler : s.q.conf.fpDescqC2hPacket.isSome
  ring : CmplRing s.q s.sent r
  entryLen : 0 < s.q.wbEntryLen
  wrbPidx : s.wrbPidx = s.sent.length % s.q.conf.rngszWrb
  color : s.color = lap s.q.conf.rngszWrb s.sent.length
  published : ∃ w, s.q.descWrb.wbPidx = w % s.q.conf.rngszWrb ∧ r ≤ w ∧ w ≤ s.sent.length
  bell : ∃ u v, s.q.regs.wrbCidx = u % s.q.conf.rngszWrb ∧
    s.q.cidxWrbPend = v % s.q.conf.rngszWrb ∧ u ≤ v ∧ v ≤ r ∧
    s.sent.length < u + s.q.conf.rngszWrb

theorem UpInv.lt_lap {s : Rx} {r : ℕ} (h : UpInv s r) :
    s.sent.length < r + s.q.conf.rngszWrb := by
  obtain ⟨u, v, -, -, h1, h2, h3⟩ := h.bell
  omega

/-- Which handler there is does not matter. -/
theorem UpInv.withHandler {s : Rx} {r : ℕ} (h : UpInv s r) (fp : PktArgs → ℤ) :
    UpInv (s.withHandler fp) r := by
  obtain ⟨h1, ⟨c1, c2, c3, c4, c5, c6, c7, c8⟩, h3, h4, h5, h6, h7⟩ := h
  refine ⟨rfl, ⟨c1, c2, c3, c4, c5, c6, fun k hk hr => ?_, c8⟩, h3, h4, h5, h6, h7⟩
  obtain ⟨hmem, g1, g2, g3, g4, g5⟩ := c7 k hk hr
  exact ⟨hmem, g1, g2, g3, g4, g5⟩

theorem UpInv.service {s : Rx} {r : ℕ} (h : UpInv s r) (budget : ℤ) (fill : ℕ → FillOutcome) :
    ∃ j, UpInv (s.step (.service budget fill)) (r + j) ∧
      r + j ≤ s.sent.length ∧
      firstEntries s.q.conf.rngszWrb s.q.wbEntryLen s.sent (r + j)
        = firstEntries s.q.conf.rngszWrb s.q.wbEntryLen s.sent r ++ processed s.q budget ∧
      KeepsRing s.q (s.step (.service budget fill)).q ∧
      (s.q.err = false → s.q.Accepts → j = s.due budget) := by
  obtain ⟨w, hw, hrw, hws⟩ := h.published
  obtain ⟨u, v, hu, hv, huv, hvr, hlap⟩ := h.bell
  obtain ⟨j, d1, hj, hjw, hcall, hlog, hall⟩ := process_call h.ring hw hrw hws (by omega) budget fill
  have hdue : s.due budget = procBudget budget (w - r) := by
    unfold Rx.due
    rw [h.ring.cidx, hw, dist_mod hrw (by omega)]
  have hq : (s.step (.service budget fill)).q
      = (descqProcessCompletionStC2h s.q budget fill).1 := rfl
  rw [← hq] at hcall
  obtain ⟨hconf, hlen, herr⟩ := hcall.keeps
  have hwrb : (s.step (.service budget fill)).q.descWrb = s.q.descWrb :=
    (congrArg (·.2.2.2.2.2.2) hcall.cmplPart).trans hcall.gone.descWrb
  obtain ⟨v', hv1, hv2, hv3⟩ := hcall.gone.pend v hvr hv
  obtain ⟨hp, hb⟩ := hcall.pend h.handler
  refine ⟨j, ⟨?_, hcall.gone.ring.of_cmplPart hcall.cmplPart, ?_, ?_, ?_, ⟨w, ?_, hjw, hws⟩, ?_⟩,
    by omega, hlog, ⟨hconf, hlen, herr⟩, fun he ha => ?_⟩
  · rw [hconf]; exact h.handler
  · rw [hlen]; exact h.entryLen
  · rw [hconf]; exact h.wrbPidx
  · rw [hconf]; exact h.color
  · rw [hconf, hwrb]; exact hw
  · rw [hconf, hp, hv3]
    rcases hb with hb | hb
    · exact ⟨u, v', hb.trans hu, rfl, by omega, hv2, hlap⟩
    · exact ⟨v', v', hb.trans hv3, rfl, le_rfl, hv2, by
        show s.sent.length < _
        omega⟩
  · rw [hdue]
    exact hall he (.inl h.handler) ha

/-! ## The steps of the device -/

theorem UpInv.publish {s : Rx} {r : ℕ} (h : UpInv s r) {p : ℕ} (hp : p < s.q.conf.rngszWrb)
    (hle : dist s.q.conf.rngszWrb s.q.descWrb.wbPidx p
      ≤ dist s.q.conf.rngszWrb s.q.descWrb.wbPidx s.wrbPidx) : UpInv (s.publish p) r := by
  obtain ⟨w, hw, hrw, hws⟩ := h.published
  have hlap := h.lt_lap
  obtain ⟨h1, h2, h3, h4, h5, -, h7⟩ := h
  rw [h4, hw] at hle
  obtain ⟨c, hc, hwc, hcs⟩ := exists_count_between hp hws (by omega) hle
  exact ⟨h1, h2.congr rfl rfl rfl rfl rfl rfl, h3, h4, h5, ⟨c, hc, hrw.trans hwc, hcs⟩, h7⟩

theorem UpInv.dma {s : Rx} {r : ℕ} (h : UpInv s r) {word : ℕ} {payload : List UInt8}
    (hl : RxLegal s (.dma word payload)) : UpInv (s.dma word payload) r := by
  set c : Cmpl := { word := word, payload := payload, seq := s.sent.length + 1 } with hc
  obtain ⟨u, v, hu, hv, huv, hvr, hlap⟩ := h.bell
  obtain ⟨hf, hcol, herr, hring, hcase⟩ := hl
  have hrs := h.ring.le
  have hn := h.ring.pos
  rw [hu, h.wrbPidx, dist_mod (by omega) hlap] at hring
  have hgood : c.Good s.q.conf (lap s.q.conf.rngszWrb s.sent.length) := by
    refine ⟨hf, hcol.trans h.color, herr, fun h3 => ?_, fun h3 => ?_⟩
    · rcases hcase with ⟨-, hlen, -⟩ | ⟨h3', -, -⟩
      · exact hlen
      · exact absurd (h3.symm.trans h3') (by decide)
    · rcases hcase with ⟨h3', -, -⟩ | ⟨-, hudd, -⟩
      · exact absurd (h3'.symm.trans h3) (by decide)
      · exact hudd
  have hsent : (s.dma word payload).sent = s.sent ++ [c] := rfl
  have hlen : (s.sent ++ [c]).length = s.sent.length + 1 := List.length_append
  refine ⟨h.handler, ?_, h.entryLen, ?_, ?_, ?_, ⟨u, v, hu, hv, huv, hvr, ?_⟩⟩
  · refine h.ring.write h.entryLen (by omega) hgood rfl rfl rfl rfl rfl rfl ?_
    show Function.update s.q.descWrb.mem (s.wrbPidx * s.q.wbEntryLen) word = _
    rw [h.wrbPidx]
  · show adv s.q.conf.rngszWrb s.wrbPidx 1 = (s.sent ++ [c]).length % s.q.conf.rngszWrb
    rw [h.wrbPidx, adv_mod, hlen]
  · show (if adv s.q.conf.rngszWrb s.wrbPidx 1 = 0 then !s.color else s.color)
      = lap s.q.conf.rngszWrb (s.sent ++ [c]).length
    have hlt := Nat.mod_lt s.sent.length hn
    rw [hlen, lap_succ hn, h.wrbPidx, adv_one hlt, h.color]
    by_cases hw : s.sent.length % s.q.conf.rngszWrb + 1 = s.q.conf.rngszWrb
    · rw [if_pos hw, if_pos rfl, if_pos hw]
    · rw [if_neg hw, if_neg (Nat.succ_ne_zero _), if_neg hw]
  · obtain ⟨w, hw, hrw, hws⟩ := h.published
    exact ⟨w, hw, hrw, by rw [hsent, hlen]; omega⟩
  · rw [hsent, hlen]
    show s.sent.length + 1 < u + s.q.conf.rngszWrb
    omega

/-! ## The queue just started -/

/-- An ST C2H queue, with or without packet handler, that has just been started for the first
time, on a ring of 2 to 65536 entries with buffers of a power of two of at least a page. -/
def StartedC2h (q : Descq) : Prop :=
  ∃ (d : Descq) (env : StartEnv) (csr : GlobalCsrConf) (k : ℕ), env.csr = some csr ∧
    2 ≤ csr.ringSz d.conf.descRngSzIdx ∧ csr.ringSz d.conf.descRngSzIdx ≤ 65536 ∧
    csr.c2hBufSz d.conf.c2hBufSzIdx = 2 ^ k ∧ pageShift ≤ k ∧ k ≤ 31 ∧
    (d.conf.st && d.conf.c2h) = true ∧ d.err = false ∧
    d.flq = {} ∧ d.pendList = [] ∧ d.copied = [] ∧ d.warned = false ∧
    (descqStart d env).2 = 0 ∧ q = (descqStart d env).1

theorem StartedC2h.startedRx {q : Descq} (h : StartedC2h q)
    (hnone : q.conf.fpDescqC2hPacket = none) : StartedRx q := by
  obtain ⟨d, env, csr, k, hcsr, hlo, hhi, hbuf, hk, hk', hkind, _, hflq, hpend, hcop, hw, hok,
    rfl⟩ := h
  refine ⟨d, env, csr, k, hcsr, hlo, hhi, hbuf, hk, hk', hkind, ?_, hflq, hpend, hcop, hw, hok, rfl⟩
  obtain ⟨slot, sdesc, intrId, heq, -⟩ := startC2h_eq hcsr hkind hok
  rw [heq] at hnone
  exact hnone

theorem StartedC2h.err {q : Descq} (h : StartedC2h q) : q.err = false := by
  obtain ⟨d, env, csr, k, hcsr, -, -, -, -, -, hkind, herr, -, -, -, -, hok, rfl⟩ := h
  obtain ⟨slot, sdesc, intrId, heq, -⟩ := startC2h_eq hcsr hkind hok
  rw [heq]
  exact herr

/-- A queue just started has gone through nothing. -/
theorem StartedC2h.upInv {q : Descq} (h : StartedC2h q)
    (hsome : q.conf.fpDescqC2hPacket.isSome) : UpInv { q := q } 0 := by
  obtain ⟨d, env, csr, k, hcsr, hlo, hhi, -, -, -, hkind, -, -, -, -, -, hok, rfl⟩ := h
  obtain ⟨slot, sdesc, intrId, heq, -⟩ := startC2h_eq hcsr hkind hok
  rw [heq] at hsome ⊢
  set n := u32Sub (csr.ringSz d.conf.descRngSzIdx) 1 with hn
  have hn' : n = csr.ringSz d.conf.descRngSzIdx - 1 := u32Sub_of_le (by omega) (by omega)
  refine ⟨hsome, ?_, ?_, (Nat.zero_mod _).symm, by simp [lap],
    ⟨0, (Nat.zero_mod _).symm, le_rfl, le_rfl⟩,
    ⟨0, 0, (Nat.zero_mod _).symm, (Nat.zero_mod _).symm, le_rfl, le_rfl, ?_⟩⟩
  · exact ⟨by show 1 ≤ n; omega, by show n ≤ 65535; omega, (Nat.zero_mod _).symm,
      by rw [Nat.zero_mod, Nat.zero_mul]; rfl, by simp [lap, Descq.up, Descq.withRings], le_rfl,
      fun _ hk => absurd hk (Nat.not_lt_zero _), fun _ hk => absurd hk (Nat.not_lt_zero _)⟩
  · show 0 < 8 <<< _
    rw [Nat.shiftLeft_eq]
    exact Nat.mul_pos (by decide) (Nat.two_pow_pos _)
  · show 0 < 0 + n
    omega

/-! ## Runs -/

/-- **The law of going through entries**: the trace is the first `r` entries written. -/
def CxInv (c : Cx) : Prop :=
  ∃ r, c.log = firstEntries c.s.q.conf.rngszWrb c.s.q.wbEntryLen c.s.sent r ∧
    c.s.q.err = false ∧ ((∃ pend, RxInv c.s r pend) ∨ UpInv c.s r)

/-- More entries written do not change those gone through. -/
theorem firstEntries_append (n entryLen : ℕ) {sent : List Cmpl} {r : ℕ} (hr : r ≤ sent.length)
    (c : Cmpl) : firstEntries n entryLen (sent ++ [c]) r = firstEntries n entryLen sent r := by
  unfold firstEntries
  rw [List.take_append_of_le_length hr]

/-- A step of the callers leaves the error flag and the completion side alone. -/
theorem cmplPart_callers (s : Rx) {l : RxLabel} (hl : ¬ l.Device)
    (hs : ∀ budget fill, l ≠ .service budget fill) :
    (s.step l).q.cmplPart = s.q.cmplPart ∧ (s.step l).sent = s.sent := by
  have hread := cmplPart_serveFrame.read
  cases l with
  | submit req =>
      obtain ⟨hd, hq⟩ := submit_rx s req
      refine ⟨?_, hd.sent⟩
      show (s.submit req).q.cmplPart = _
      rw [hq]
      split_ifs
      · rfl
      · exact hread _ _ _ _
  | pend id =>
      unfold Rx.step
      simp only
      split
      · next cb _ =>
          obtain ⟨hd, -, hq | hq⟩ := pendCb_rx s cb
          · exact ⟨by rw [hq], hd.sent⟩
          · exact ⟨by rw [hq]; rfl, hd.sent⟩
      · exact ⟨rfl, rfl⟩
  | wait id =>
      obtain ⟨hd, hq | hq⟩ := wait_rx s id
      · exact ⟨congrArg Descq.cmplPart hq, hd.sent⟩
      · exact ⟨(congrArg Descq.cmplPart hq).trans rfl, hd.sent⟩
  | packetRead req =>
      obtain ⟨hd, hq | hq⟩ := packetRead_rx s req
      · exact ⟨congrArg Descq.cmplPart hq, hd.sent⟩
      · exact ⟨(congrArg Descq.cmplPart hq).trans (hread _ _ _ _), hd.sent⟩
  | service budget fill => exact absurd rfl (hs budget fill)
  | dma word payload => exact absurd trivial hl
  | publish p => exact absurd trivial hl

/-- A service call on a queue without handler. -/
theorem RxInv.service_call {s : Rx} {r pend : ℕ} (h : RxInv s r pend) (budget : ℤ)
    (fill : ℕ → FillOutcome) : ∃ j, (∃ pend', RxInv (s.step (.service budget fill)) (r + j) pend') ∧
      firstEntries s.q.conf.rngszWrb s.q.wbEntryLen s.sent (r + j)
        = firstEntries s.q.conf.rngszWrb s.q.wbEntryLen s.sent r ++ processed s.q budget ∧
      KeepsRing s.q (s.step (.service budget fill)).q ∧ j ≤ s.due budget ∧
      (s.q.err = false → s.q.Ready → j = s.due budget) := by
  obtain ⟨w, hw, hrw, hws⟩ := h.published
  have hlap := h.lt_lap
  have hring := h.serving.ring
  obtain ⟨j, d1, hj, hjw, hcall, hlog, hall⟩ := process_call hring hw hrw hws (by omega) budget fill
  have hdue : s.due budget = procBudget budget (w - r) := by
    unfold Rx.due
    rw [hring.cidx, hw, dist_mod hrw (by omega)]
  have hq : (s.step (.service budget fill)).q
      = (descqProcessCompletionStC2h s.q budget fill).1 := rfl
  rw [← hq] at hcall
  have hconf := hcall.keeps.conf
  have hacc : s.q.Accepts := by
    intro fp hfp
    rw [h.serving.rx.sizes.noHandler] at hfp
    exact absurd hfp (Option.not_mem_none fp)
  have hring' : CmplRing (s.step (.service budget fill)).q s.sent (r + j) :=
    hcall.gone.ring.of_cmplPart hcall.cmplPart
  -- both accounts of the call got to the same entry
  have hinv : ∃ r' pend', RxInv (s.step (.service budget fill)) r' pend' ∧ r ≤ r' ∧ r' ≤ w := by
    rcases h.service budget fill with heq | ⟨k, log, q1, hinv, -, -⟩
    · exact ⟨r, pend, h.same ⟨rfl, rfl, rfl, rfl⟩ heq, le_rfl, hrw⟩
    · refine ⟨_, _, hinv, Nat.le_add_right _ _, ?_⟩
      rw [hdue]
      unfold procBudget
      split_ifs <;> omega
  obtain ⟨r', pend', hinv, hr1, hr2⟩ := hinv
  have heq : r' = r + j := by
    refine hinv.serving.ring.unique hring' ?_ ?_
    · rw [hconf]
      omega
    · rw [hconf]
      omega
  rw [heq] at hinv
  refine ⟨j, ⟨pend', hinv⟩, hlog, hcall.keeps, by rw [hdue]; exact hj, fun he hr => ?_⟩
  rw [hdue]
  exact hall he hr hacc

/-- A step that goes through no entry. -/
theorem CxInv.quiet {c : Cx} {s' : Rx} {r : ℕ}
    (hlog : c.log = firstEntries c.s.q.conf.rngszWrb c.s.q.wbEntryLen c.s.sent r)
    (herr : c.s.q.err = false) (hle : r ≤ c.s.sent.length) (hkeep : KeepsRing c.s.q s'.q)
    (hsent : s'.sent = c.s.sent ∨ ∃ e, s'.sent = c.s.sent ++ [e])
    (hinv : (∃ pend, RxInv s' r pend) ∨ UpInv s' r) : CxInv { c with s := s' } := by
  refine ⟨r, ?_, hkeep.err.trans herr, hinv⟩
  show c.log = firstEntries s'.q.conf.rngszWrb s'.q.wbEntryLen s'.sent r
  rw [hkeep.conf, hkeep.wbEntryLen, hlog]
  rcases hsent with heq | ⟨e, heq⟩
  · rw [heq]
  · rw [heq, firstEntries_append _ _ hle]

/-- **Step lemma** of the device. -/
theorem CxInv.device {c : Cx} (h : CxInv c) {l : RxLabel} (hl : RxLegal c.s l) (hdev : l.Device) :
    CxInv (c.step (.rx l)) := by
  obtain ⟨r, hlog, herr, hinv⟩ := h
  have hle : r ≤ c.s.sent.length := by
    rcases hinv with ⟨pend, hrx⟩ | hup
    · exact hrx.serving.ring.le
    · exact hup.ring.le
  cases l with
  | dma word payload =>
      show CxInv { c with s := c.s.dma word payload }
      refine CxInv.quiet hlog herr hle ⟨rfl, rfl, rfl⟩ (.inr ⟨_, rfl⟩) ?_
      rcases hinv with ⟨pend, hrx⟩ | hup
      · exact .inl ⟨pend, hrx.dma hl⟩
      · exact .inr (hup.dma hl)
  | publish p =>
      show CxInv { c with s := c.s.publish p }
      refine CxInv.quiet hlog herr hle ⟨rfl, rfl, rfl⟩ (.inl rfl) ?_
      rcases hinv with ⟨pend, hrx⟩ | hup
      · exact .inl ⟨pend, hrx.publish hl.1 hl.2⟩
      · exact .inr (hup.publish hl.1 hl.2)
  | submit | pend | wait | packetRead | service => exact absurd hdev id

/-- A step of the callers may read buffers, but goes through no entry. -/
theorem RxInv.callers {s : Rx} {r pend : ℕ} (h : RxInv s r pend) {l : RxLabel} (hdev : ¬ l.Device)
    (hno : ∀ budget fill, l ≠ .service budget fill) : ∃ k, RxInv (s.step l) r (pend + k) := by
  cases l with
  | submit req => exact h.submit req
  | pend id =>
      refine ⟨0, ?_⟩
      rcases step_pend_cases s id with heq | ⟨cb, -, -, heq⟩
      · rw [heq]
        exact h
      · rw [heq]
        exact h.pendCb cb
  | wait id => exact ⟨0, h.wait id⟩
  | packetRead req => exact h.packetRead req
  | service budget fill => exact absurd rfl (hno budget fill)
  | dma | publish => exact absurd trivial hdev

/-- A step on a queue without handler that is no service call. -/
theorem CxInv.callers {c : Cx} {r pend : ℕ} (hrx : RxInv c.s r pend)
    (hlog : c.log = firstEntries c.s.q.conf.rngszWrb c.s.q.wbEntryLen c.s.sent r)
    (herr : c.s.q.err = false) {l : RxLabel} (hdev : ¬ l.Device)
    (hno : ∀ budget fill, l ≠ .service budget fill) : CxInv { c with s := c.s.step l } := by
  obtain ⟨hpart, hsent⟩ := cmplPart_callers c.s hdev hno
  have hring : CmplRing (c.s.step l).q c.s.sent r := hrx.serving.ring.of_cmplPart hpart
  have hkeep : KeepsRing c.s.q (c.s.step l).q :=
    ⟨congrArg (·.1) hpart, congrArg (·.2.2.2.2.2.1) hpart, congrArg (·.2.1) hpart⟩
  obtain ⟨k, hinv⟩ := hrx.callers hdev hno
  exact CxInv.quiet hlog herr hring.le hkeep (.inl hsent) (.inl ⟨_, hinv⟩)

theorem RxInv.no_upper {s : Rx} {r pend : ℕ} (h : RxInv s r pend) :
    s.q.conf.fpDescqC2hPacket.isSome = false := by
  rw [h.serving.rx.sizes.noHandler]
  rfl

/-- **Step lemma.** -/
theorem CxInv.step {c : Cx} (h : CxInv c) {l : CxLabel} (hl : CxLegal c l) : CxInv (c.step l) := by
  cases l with
  | upper budget fill fp =>
      obtain ⟨r, hlog, herr, ⟨pend, hrx⟩ | hup⟩ := h
      · exact absurd (show c.s.q.conf.fpDescqC2hPacket.isSome = true from hl)
          (by rw [hrx.no_upper]; decide)
      · obtain ⟨j, hup', -, hlog', hkeep, -⟩ := (hup.withHandler fp).service budget fill
        refine ⟨r + j, ?_, hkeep.err.trans herr, .inr hup'⟩
        show c.log ++ _ = firstEntries
          ((c.s.withHandler fp).step (.service budget fill)).q.conf.rngszWrb
          ((c.s.withHandler fp).step (.service budget fill)).q.wbEntryLen c.s.sent (r + j)
        rw [hlog, hkeep.conf, hkeep.wbEntryLen]
        exact hlog'.symm
  | rx l =>
      obtain ⟨hlegal, hside⟩ := hl
      by_cases hdev : l.Device
      · exact h.device hlegal hdev
      obtain ⟨r, hlog, herr, ⟨pend, hrx⟩ | hup⟩ := h
      · by_cases hserv : ∃ budget fill, l = .service budget fill
        · obtain ⟨budget, fill, rfl⟩ := hserv
          obtain ⟨j, hrx', hlog', hkeep, -⟩ := hrx.service_call budget fill
          refine ⟨r + j, ?_, hkeep.err.trans herr, .inl hrx'⟩
          show c.log ++ _ = firstEntries (c.s.step (.service budget fill)).q.conf.rngszWrb
            (c.s.step (.service budget fill)).q.wbEntryLen c.s.sent (r + j)
          rw [hlog, hkeep.conf, hkeep.wbEntryLen]
          exact hlog'.symm
        · have hno : ∀ budget fill, l ≠ .service budget fill :=
            fun budget fill he => hserv ⟨budget, fill, he⟩
          have hstep : c.step (.rx l) = { c with s := c.s.step l } := by
            cases l with
            | service budget fill => exact absurd rfl (hno budget fill)
            | dma | publish | submit | pend | wait | packetRead => rfl
          rw [hstep]
          exact CxInv.callers hrx hlog herr hdev hno
      · have hnone := hside.resolve_left hdev
        rw [← Option.not_isSome, hup.handler] at hnone
        exact absurd hnone (by decide)

/-- **Completion entries are gone through exactly once and in order**, after every run of a
queue just started: the trace is the first `r` entries written, each at its place, and a
service call that has a request or a handler to serve goes on with all the entries due. -/
theorem completion_once {q : Descq} (h : StartedC2h q) {evs : List CxLabel} {c : Cx}
    (hrun : Run Cx.step CxLegal { s := { q := q } } evs c) :
    let n := c.s.q.conf.rngszWrb
    ∃ r ≤ c.s.sent.length, c.log = firstEntries n c.s.q.wbEntryLen c.s.sent r ∧
      c.s.q.cidxWrb = r % n ∧ c.s.q.cidxWrb < n ∧
      c.s.q.descWrbCur = c.s.q.cidxWrb * c.s.q.wbEntryLen ∧
      c.s.q.color = xor true (decide (r / n % 2 = 1)) ∧
      (∀ budget fill, c.s.q.conf.fpDescqC2hPacket = none →
        c.s.q.pendList ≠ [] ∨ c.s.q.workList ≠ [] →
        (c.step (.rx (.service budget fill))).log
          = firstEntries n c.s.q.wbEntryLen c.s.sent (r + c.s.due budget)) ∧
      ∀ budget fill fp, c.s.q.conf.fpDescqC2hPacket.isSome → (∀ a, 0 ≤ fp a) →
        (c.step (.upper budget fill fp)).log
          = firstEntries n c.s.q.wbEntryLen c.s.sent (r + c.s.due budget) := by
  have hinit : CxInv { s := { q := q } } := by
    refine ⟨0, rfl, h.err, ?_⟩
    cases hfp : q.conf.fpDescqC2hPacket with
    | none => exact .inl ⟨0, (h.startedRx hfp).rxInv⟩
    | some fp => exact .inr (h.upInv (by rw [hfp]; rfl))
  intro n
  obtain ⟨r, hlog, herr, hinv⟩ : CxInv c := hrun.invariant hinit (fun _ _ hi hl => hi.step hl)
  have hring : CmplRing c.s.q c.s.sent r := by
    rcases hinv with ⟨pend, hrx⟩ | hup
    · exact hrx.serving.ring
    · exact hup.ring
  refine ⟨r, hring.le, hlog, hring.cidx, ?_, ?_, ?_, ?_, ?_⟩
  · rw [hring.cidx]
    exact Nat.mod_lt r hring.pos
  · rw [hring.cidx]
    exact hring.cur
  · rw [hring.color, Bool.true_xor]
    unfold lap
    rw [← decide_not]
    exact decide_eq_decide.mpr Nat.mod_two_ne_one.symm
  · -- without a handler the requests waiting take the packets
    intro budget fill hnone hwaiting
    rcases hinv with ⟨pend, hrx⟩ | hup
    · obtain ⟨j, -, hlog', -, -, hall⟩ := hrx.service_call budget fill
      show c.log ++ _ = _
      rw [hlog, ← hlog', hall herr (.inr hwaiting)]
    · have hsome := hup.handler
      rw [hnone] at hsome
      exact absurd hsome (by decide)
  · -- a handler is given them, and accepts all by assumption
    intro budget fill fp hsome hacc
    rcases hinv with ⟨pend, hrx⟩ | hup
    · exact absurd hsome (by rw [hrx.no_upper]; decide)
    · obtain ⟨j, -, -, hlog', -, hall⟩ := (hup.withHandler fp).service budget fill
      show c.log ++ _ = _
      rw [hlog]
      refine hlog'.symm.trans ?_
      rw [hall herr (fun fp' hfp => by
        rw [← Option.some.inj (Option.mem_def.mp hfp)]
        exact hacc)]
      rfl

theorem startedRx_startedC2h : StartedC2h startedRx.q :=
  ⟨addedC2h, goodStart (csrOf 4), csrOf 4, 12, rfl, by decide, by decide, by decide, by decide,
    by decide, rfl, rfl, rfl, rfl, rfl, rfl, by decide +kernel, rfl⟩

/-- Three packets of three entries each go around the ring once. -/
theorem completion_once_lap :
    let lapOf := fun color => [CxLabel.rx (.dma (cmplWord color 4) [1, 2, 3, 4]),
      .rx (.publish 1), .rx (.service 0 (fun _ => .noMem)),
      .rx (.dma (cmplWord color 4) [1, 2, 3, 4]), .rx (.publish 2),
      .rx (.service 0 (fun _ => .noMem)), .rx (.dma (cmplWord color 4) [1, 2, 3, 4]),
      .rx (.publish 0), .rx (.service 0 (fun _ => .noMem))]
    let c := ([CxLabel.rx (.submit (readReq 100)), .rx (.pend 0)] ++ lapOf true).foldl Cx.step
      { s := startedRx }
    c.log = [(0, 74), (8, 74), (16, 74)] ∧ ∃ r ≤ c.s.sent.length,
      c.log = firstEntries c.s.q.conf.rngszWrb c.s.q.wbEntryLen c.s.sent r := by
  intro lapOf c
  refine ⟨by decide +kernel, ?_⟩
  obtain ⟨r, hr, hlog, -⟩ := completion_once startedRx_startedC2h
    (Run.under CxLegal ([CxLabel.rx (.submit (readReq 100)), .rx (.pend 0)]
      ++ lapOf true) (by decide +kernel))
  exact ⟨r, hr, hlog⟩

end Qdma
