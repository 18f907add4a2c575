/-
# Packets a handler refuses

A handler may refuse an entry; the loop of `descq_process_completion_st_c2h` then ends, and the
next call begins with the same entry.  Here the handler has a state of its own: it answers the
`i`-th entry of a call as `fp i` does.

`refused_kept_iff` says for which runs an entry that is refused is kept as it was, so that the run
is one in which it had not been tried: those in which no entry with buffers is refused.  `rcv_pkt`
takes the buffers off `avail` before it asks (`refusal_takes_buffer`).
-/
import Qdma.StaleSlots

namespace Qdma

open Exec

/-! ## A handler with a state -/

/-- The handler answers as `fp`. -/
def Proc.withHandler (p : Proc) (fp : PktArgs → ℤ) : Proc :=
  { p with d := { p.d with conf := { p.d.conf with fpDescqC2hPacket := some fp } } }

/-- The configuration put back. -/
def Proc.withConf (p : Proc) (conf : QueueConf) : Proc := { p with d := { p.d with conf := conf } }

/-- The loop of `descq_process_completion_st_c2h`, where the handler answers the `i`-th entry as
`fp i`. -/
def procLoopBy : (ℕ → PktArgs → ℤ) → ℕ → Proc → Proc
  | _, 0, p => p
  | fp, n + 1, p =>
      (procTurn (procLoopBy (fun i => fp (i + 1)) n) (p.withHandler (fp 0))).withConf p.d.conf

/-- `descq_process_completion_st_c2h` with such a handler. -/
def processUpper (fp : ℕ → PktArgs → ℤ) : Descq → ℤ → (ℕ → FillOutcome) → Descq × ℤ :=
  processWith (procLoopBy fp)

/-- A handler that takes everything. -/
def takesAll : ℕ → PktArgs → ℤ := fun _ _ => 0

/-- The entry that is refused, of `n` entries from the place `w` on: those before it are new,
sound and taken. -/
def Way.refusal : (ℕ → PktArgs → ℤ) → ℕ → Way → Option ℕ
  | _, 0, _ => none
  | fp, n + 1, w =>
      if w.faulty || w.entry.color != w.color then none
      else if fp 0 w.args < 0 then some 0
      else (Way.refusal (fun i => fp (i + 1)) n w.next).map (· + 1)

/-- The entry a call refuses. -/
def Descq.refusal (d : Descq) (fp : ℕ → PktArgs → ℤ) (budget : ℤ) : Option ℕ :=
  Way.refusal fp (d.entriesOf budget) (d.way d.pidx)

/-! ## One entry -/

/-- The entry the loop has come to. -/
def Proc.cmpl (p : Proc) : CmplInfo := (p.d.way p.pidx).entry.withPidx p.pidx

/-- The queue when the handler has been asked, whatever it says. -/
def Proc.tried (p : Proc) : Proc :=
  { p with d := if p.cmpl.descUsed then p.d.asked p.cmpl p.cmpl.len else p.d }

/-- The last buffer of the packet. -/
def Proc.lastBuf (p : Proc) : ℕ :=
  ringIdxIncr p.pidx (u32Sub (flNr p.d.flq.pgShift p.cmpl.len) 1) p.d.conf.rngsz

/-- The queue once the handler has taken the entry. -/
def Proc.taken (p : Proc) : Descq :=
  if p.cmpl.descUsed then
    { p.tried.d with
      cidxWrbPend := p.d.cidxWrb
      flq := { p.tried.d.flq with pidxPend := p.lastBuf } }
  else p.d

/-- The loop goes on. -/
def Proc.upNext (p : Proc) : Proc where
  d := wrbNext p.taken
  pidx := (p.d.way p.pidx).pidxNext
  procCnt := p.procCnt + 1

/-- An entry without buffers has user data, and is not asked about in `rcv_pkt`. -/
theorem Way.udd_of_sound {w : Way} (h : w.faulty = false) (hno : w.entry.descUsed = false) :
    w.cmplUddEn = true := by
  unfold Way.faulty at h
  rw [hno, Bool.or_eq_false_iff, Bool.not_false, Bool.true_and, Bool.not_eq_false'] at h
  exact h.2

/-- A handler that has been asked and refuses. -/
theorem refused_withHandler {p : Proc} {fp : PktArgs → ℤ} (h : (p.d.way p.pidx).Good)
    (hrv : fp (p.d.way p.pidx).args < 0) : (p.withHandler fp).refused = p.tried.withHandler fp := by
  show { p.withHandler fp with d := (rcvEntry (p.withHandler fp).d p.cmpl).1 } = _
  cases hused : p.cmpl.descUsed with
  | true =>
      have hargs : (p.d.way p.pidx).args = (p.withHandler fp).d.pktArgs p.cmpl p.cmpl.len :=
        if_pos hused
      have heq : rcvEntry (p.withHandler fp).d p.cmpl =
          rcvPkt (p.withHandler fp).d p.cmpl p.cmpl.len := if_pos hused
      rw [hargs] at hrv
      unfold Proc.tried
      rw [heq, rcvPkt_refused rfl hrv, hused, if_pos rfl]
      rfl
  | false =>
      have hudd : p.d.conf.cmplUddEn = true := Way.udd_of_sound h.sound hused
      have heq : (rcvEntry (p.withHandler fp).d p.cmpl).1 = (p.withHandler fp).d := by
        unfold rcvEntry
        rw [hused, if_neg Bool.false_ne_true,
          if_pos (show (p.withHandler fp).d.conf.cmplUddEn = true from hudd)]
        rfl
      unfold Proc.tried
      rw [heq, hused, if_neg Bool.false_ne_true]

theorem wrbNext_conf (d : Descq) (fp : PktArgs → ℤ) :
    wrbNext { d with conf := { d.conf with fpDescqC2hPacket := some fp } } =
      { wrbNext d with conf := { (wrbNext d).conf with fpDescqC2hPacket := some fp } } := by
  unfold wrbNext
  by_cases hlast : d.cidxWrb + 1 = d.conf.rngszWrb
  · rw [if_pos hlast, if_pos hlast]
  · rw [if_neg hlast, if_neg hlast]

/-- A handler that has been asked and takes the entry. -/
theorem received_withHandler {p : Proc} {fp : PktArgs → ℤ} (h : (p.d.way p.pidx).Good)
    (hrv : 0 ≤ fp (p.d.way p.pidx).args) :
    (p.withHandler fp).received = p.upNext.withHandler fp := by
  have hd : (rcvEntry (p.withHandler fp).d p.cmpl).1 =
      { p.taken with conf := { p.taken.conf with fpDescqC2hPacket := some fp } } := by
    cases hused : p.cmpl.descUsed with
    | true =>
        have hargs : (p.d.way p.pidx).args = (p.withHandler fp).d.pktArgs p.cmpl p.cmpl.len :=
          if_pos hused
        have heq : rcvEntry (p.withHandler fp).d p.cmpl =
            rcvPkt (p.withHandler fp).d p.cmpl p.cmpl.len := if_pos hused
        rw [hargs] at hrv
        unfold Proc.taken Proc.tried
        rw [heq, rcvPkt_taken rfl hrv, hused, if_pos rfl, if_pos rfl]
        rfl
    | false =>
        have hudd : p.d.conf.cmplUddEn = true := Way.udd_of_sound h.sound hused
        unfold rcvEntry Proc.taken
        rw [hused, if_neg Bool.false_ne_true, if_neg Bool.false_ne_true,
          if_pos (show (p.withHandler fp).d.conf.cmplUddEn = true from hudd)]
        rfl
  show ({ d := wrbNext (rcvEntry (p.withHandler fp).d p.cmpl).1, pidx := _, procCnt := _ } : Proc) = _
  rw [hd, wrbNext_conf]
  rfl

/-- What handler there is does not matter, as it is put in. -/
theorem procLoopBy_withHandler (fp : ℕ → PktArgs → ℤ) (n : ℕ) (p : Proc) (f : PktArgs → ℤ) :
    (procLoopBy fp n (p.withHandler f)).withConf p.d.conf = procLoopBy fp n p := by
  cases n with
  | zero => rfl
  | succ n => rfl

theorem conf_tried (p : Proc) : p.tried.d.conf = p.d.conf := by
  unfold Proc.tried
  split_ifs
  · rfl
  · rfl

theorem conf_upNext (p : Proc) : p.upNext.d.conf = p.d.conf := by
  have hconf : LoopFrame Descq.conf :=
    ⟨⟨fun _ _ _ => rfl, fun _ _ => rfl, fun _ _ => rfl⟩, fun _ _ => rfl, fun _ _ _ _ => rfl⟩
  refine (hconf.wrbNext _).trans ?_
  unfold Proc.taken
  split_ifs
  · exact conf_tried p
  · rfl

/-- **One entry**, with the answer of the handler. -/
theorem procLoopBy_succ (fp : ℕ → PktArgs → ℤ) (n : ℕ) (p : Proc) :
    procLoopBy fp (n + 1) p =
      if (p.d.way p.pidx).faulty then p.halted
      else if (p.d.way p.pidx).entry.color != (p.d.way p.pidx).color then p
      else if fp 0 (p.d.way p.pidx).args < 0 then p.tried
      else procLoopBy (fun i => fp (i + 1)) n p.upNext := by
  rw [procLoopBy]
  cases hfault : (p.d.way p.pidx).faulty with
  | true =>
      rw [if_pos rfl, procTurn_halted _ (show ((p.withHandler (fp 0)).d.way _).faulty = true from
        hfault)]
      rfl
  | false =>
      rw [if_neg Bool.false_ne_true]
      by_cases hstale : (p.d.way p.pidx).Stale
      · rw [if_pos (bne_iff_ne.mpr hstale), procTurn_stale _ (p := p.withHandler (fp 0)) hfault hstale]
        rfl
      have hgood : (p.d.way p.pidx).Good := ⟨hstale, hfault⟩
      rw [if_neg (fun h => hstale (bne_iff_ne.mp h))]
      by_cases hrv : fp 0 (p.d.way p.pidx).args < 0
      · rw [if_pos hrv, procTurn_refused _ (p := p.withHandler (fp 0)) hgood (not_le.mpr hrv),
          refused_withHandler hgood hrv, ← conf_tried p]
        rfl
      · rw [if_neg hrv, procTurn_received _ (p := p.withHandler (fp 0)) hgood (not_lt.mp hrv),
          received_withHandler hgood (not_lt.mp hrv), ← conf_upNext p, procLoopBy_withHandler]

theorem way_upNext {p : Proc} (h : (p.d.way p.pidx).Good) :
    p.upNext.d.way p.upNext.pidx = (p.d.way p.pidx).next := by
  have hway := way_received (p.withHandler (takesAll 0))
  rw [received_withHandler h le_rfl] at hway
  exact hway

/-- The handler is asked about the entry at `w`. -/
theorem Way.refusal_succ {fp : ℕ → PktArgs → ℤ} {n : ℕ} {w : Way} :
    Way.refusal fp (n + 1) w =
      if w.faulty || w.entry.color != w.color then none
      else if fp 0 w.args < 0 then some 0
      else (Way.refusal (fun i => fp (i + 1)) n w.next).map (· + 1) := rfl

/-- **A call that refuses the entry `k`** has received those before it, and has tried this one. -/
theorem procLoopBy_refused {fp : ℕ → PktArgs → ℤ} {n k : ℕ} {p : Proc}
    (h : Way.refusal fp n (p.d.way p.pidx) = some k) :
    k < n ∧ procLoopBy takesAll k p = Proc.upNext^[k] p ∧
      procLoopBy fp n p = (Proc.upNext^[k] p).tried ∧
      (Proc.upNext^[k] p).d.way (Proc.upNext^[k] p).pidx = Way.next^[k] (p.d.way p.pidx) := by
  induction n generalizing fp k p with
  | zero => exact absurd h.symm (Option.some_ne_none k)
  | succ n ih =>
      rw [Way.refusal_succ] at h
      rw [procLoopBy_succ]
      by_cases hbad : ((p.d.way p.pidx).faulty ||
          (p.d.way p.pidx).entry.color != (p.d.way p.pidx).color) = true
      · rw [if_pos hbad] at h
        exact absurd h.symm (Option.some_ne_none k)
      rw [if_neg hbad] at h
      rw [Bool.not_eq_true, Bool.or_eq_false_iff] at hbad
      obtain ⟨hfault, hcolor⟩ := hbad
      rw [hfault, hcolor, if_neg Bool.false_ne_true, if_neg Bool.false_ne_true]
      have hgood : (p.d.way p.pidx).Good :=
        ⟨fun hs => absurd (hcolor.symm.trans (bne_iff_ne.mpr hs)) Bool.false_ne_true, hfault⟩
      by_cases hrv : fp 0 (p.d.way p.pidx).args < 0
      · rw [if_pos hrv] at h
        obtain rfl := Option.some.inj h
        rw [if_pos hrv]
        exact ⟨n.succ_pos, rfl, rfl, rfl⟩
      · rw [if_neg hrv, ← way_upNext hgood] at h
        obtain ⟨j, hj, rfl⟩ := Option.map_eq_some_iff.mp h
        obtain ⟨hlt, hall, hby, hway⟩ := ih hj
        rw [if_neg hrv, hby]
        refine ⟨Nat.succ_lt_succ hlt, ?_, rfl, ?_⟩
        · rw [procLoopBy_succ, hfault, hcolor, if_neg Bool.false_ne_true,
            if_neg Bool.false_ne_true, if_neg (show ¬ takesAll 0 _ < 0 from lt_irrefl 0)]
          exact hall
        · rw [way_upNext hgood] at hway
          exact hway

/-- **A call that refuses nothing** is one with a handler that takes everything. -/
theorem procLoopBy_taken {fp : ℕ → PktArgs → ℤ} {n : ℕ} {p : Proc}
    (h : Way.refusal fp n (p.d.way p.pidx) = none) : procLoopBy fp n p = procLoopBy takesAll n p := by
  induction n generalizing fp p with
  | zero => rfl
  | succ n ih =>
      rw [Way.refusal_succ] at h
      rw [procLoopBy_succ, procLoopBy_succ]
      cases hfault : (p.d.way p.pidx).faulty with
      | true => rfl
      | false =>
          rw [if_neg Bool.false_ne_true, if_neg Bool.false_ne_true]
          cases hcolor : ((p.d.way p.pidx).entry.color != (p.d.way p.pidx).color) with
          | true => rfl
          | false =>
              rw [if_neg Bool.false_ne_true, if_neg Bool.false_ne_true,
                if_neg (show ¬ takesAll 0 _ < 0 from lt_irrefl 0)]
              rw [hfault, hcolor, Bool.or_false, if_neg Bool.false_ne_true] at h
              have hgood : (p.d.way p.pidx).Good :=
                ⟨fun hs => absurd (hcolor.symm.trans (bne_iff_ne.mpr hs)) Bool.false_ne_true,
                  hfault⟩
              by_cases hrv : fp 0 (p.d.way p.pidx).args < 0
              · rw [if_pos hrv] at h
                exact absurd h (Option.some_ne_none 0)
              · rw [if_neg hrv, ← way_upNext hgood] at h
                rw [if_neg hrv]
                exact ih (Option.map_eq_none_iff.mp h)

/-- A handler that has no state is that of the queue. -/
theorem procLoopBy_const {f : PktArgs → ℤ} (n : ℕ) {p : Proc}
    (h : p.d.conf.fpDescqC2hPacket = some f) : procLoopBy (fun _ => f) n p = procLoop n p := by
  have hconf : LoopFrame Descq.conf :=
    ⟨⟨fun _ _ _ => rfl, fun _ _ => rfl, fun _ _ => rfl⟩, fun _ _ => rfl, fun _ _ _ _ => rfl⟩
  have hback : ∀ (q : Proc) (c : QueueConf), q.d.conf = c → q.withConf c = q := by
    rintro q c rfl
    rfl
  induction n generalizing p with
  | zero => rfl
  | succ n ih =>
      have hp : p.withHandler f = p := by
        unfold Proc.withHandler
        rw [← h]
      rw [procLoopBy, hp, procLoop_succ]
      cases procTurn_cases p with
      | halted _ heq =>
          rw [heq, heq]
          rfl
      | stale _ _ heq =>
          rw [heq, heq]
          rfl
      | refused _ _ heq =>
          rw [heq, heq]
          exact hback _ _ (hconf.rcvEntry p.d _)
      | received _ _ heq =>
          rw [heq, heq, ih (by rw [conf_received]; exact h)]
          exact hback _ _ ((hconf.procLoop n _).trans (conf_received p))

theorem processUpper_const {f : PktArgs → ℤ} {d : Descq} (h : d.conf.fpDescqC2hPacket = some f)
    (budget : ℤ) (fill : ℕ → FillOutcome) :
    processUpper (fun _ => f) d budget fill = descqProcessCompletionStC2h d budget fill := by
  unfold processUpper
  rw [← processWith_procLoop]
  by_cases hs : d.Serves
  · rw [processWith_serves _ hs, processWith_serves _ hs,
      procLoopBy_const _ (p := { d := d, pidx := d.pidx }) h]
  · rw [processWith_idle _ hs, processWith_idle _ hs]

/-! ## One call -/

/-- The loop as a call begins. -/
def Descq.proc (d : Descq) : Proc := { d := d, pidx := d.pidx }

/-- A call of `descq_process_completion_st_c2h`, or what the device does to the completion ring. -/
inductive RefusalEv where
  | call (budget : ℤ) (fill : ℕ → FillOutcome) (fp : ℕ → PktArgs → ℤ)
  | device (wrb : WrbRing)

/-- One step. -/
def RefusalEv.step (d : Descq) : RefusalEv → Descq
  | .call budget fill fp => (processUpper fp d budget fill).1
  | .device wrb => { d with descWrb := wrb }

/-- A call whose handler refuses nothing, and that ends before the entry `k`; if that is the first
one, there is no call. -/
def Descq.callUntil (d : Descq) (budget : ℤ) (fill : ℕ → FillOutcome) : Option ℕ → Descq
  | none => (processUpper takesAll d budget fill).1
  | some 0 => d
  | some (k + 1) => (processUpper takesAll d (k + 1 : ℕ) fill).1

/-- The same step without a refusal: the call ends before the entry that would be refused. -/
def RefusalEv.stepTaking (d : Descq) : RefusalEv → Descq
  | .call budget fill fp => d.callUntil budget fill (d.refusal fp budget)
  | .device wrb => { d with descWrb := wrb }

/-- **An entry that is refused is kept as it was**: the queue is as before it was tried, and the
next call begins with it, with the same buffers. -/
def RefusalEv.Kept (d : Descq) : RefusalEv → Prop
  | .call budget fill fp => ∀ k, d.Serves → d.refusal fp budget = some k →
      procLoopBy fp (d.entriesOf budget) d.proc = procLoopBy takesAll k d.proc ∧
        (processUpper fp d budget fill).1.way (processUpper fp d budget fill).1.pidx =
          Way.next^[k] (d.way d.pidx)
  | .device _ => True

/-- No entry with buffers is refused. -/
def RefusalEv.NoBuffers (d : Descq) : RefusalEv → Prop
  | .call budget _ fp => ∀ k, d.Serves → d.refusal fp budget = some k →
      (Way.next^[k] (d.way d.pidx)).entry.descUsed = false
  | .device _ => True

/-- `avail` misses the buffers of a packet once it has been tried. -/
theorem tried_eq_iff {p : Proc} (hshift : p.d.flq.pgShift ≤ 31) :
    p.tried = p ↔ p.cmpl.descUsed = false := by
  constructor
  · intro heq
    by_contra hused
    rw [Bool.not_eq_false] at hused
    have havail : u32Sub p.d.avail (flNr p.d.flq.pgShift p.cmpl.len) = p.d.avail := by
      have h := congrArg (fun q : Proc => q.d.avail) heq
      unfold Proc.tried at h
      rw [if_pos hused] at h
      exact h
    have hlen : p.cmpl.len ≤ 65535 := by
      show (if _ then _ else 0) ≤ 65535
      split_ifs
      · exact Nat.and_le_right
      · exact Nat.zero_le _
    rw [flNr_eq hshift hlen] at havail
    have hpos := pktNr_pos (Nat.two_pow_pos p.d.flq.pgShift) p.cmpl.len
    have hle : pktNr (2 ^ p.d.flq.pgShift) p.cmpl.len ≤ 65536 := by
      by_cases h0 : p.cmpl.len = 0
      · have h1 : pktNr (2 ^ p.d.flq.pgShift) p.cmpl.len = 1 := if_pos h0
        omega
      · have hb := (pktNr_bounds (Nat.two_pow_pos p.d.flq.pgShift) (Nat.pos_of_ne_zero h0)).1
        have hmul := Nat.le_mul_of_pos_right (pktNr (2 ^ p.d.flq.pgShift) p.cmpl.len - 1)
          (Nat.two_pow_pos p.d.flq.pgShift)
        omega
    unfold u32Sub at havail
    omega
  · intro hno
    unfold Proc.tried
    rw [if_neg (by rw [hno]; exact Bool.false_ne_true)]

theorem way_tried (p : Proc) : p.tried.d.way p.tried.pidx = p.d.way p.pidx := by
  unfold Proc.tried
  split_ifs
  · show (p.d.asked p.cmpl p.cmpl.len).way p.pidx = p.d.way p.pidx
    refine way_congr ?_ ?_ p.pidx
    · rfl
    · exact pgShift_frame.setLastLen _ _ _
  · rfl

/-- The end of a call leaves the place where the loop has got to. -/
theorem way_procEnd {p : Proc} (hup : p.d.conf.fpDescqC2hPacket.isSome)
    (h0 : p.procCnt = 0 → p.pidx = p.d.pidx) (pidxWrb pidxPend : ℕ) (fill : ℕ → FillOutcome) :
    (procEnd p pidxWrb pidxPend fill).way (procEnd p pidxWrb pidxPend fill).pidx =
      p.d.way p.pidx := by
  have hnone : p.d.conf.fpDescqC2hPacket.isNone = false := by
    rw [← Option.not_isSome, hup]
    rfl
  have hpost : PostFrame (fun d : Descq => (d.wayPart, d.pidx)) :=
    ⟨fun _ _ _ => rfl, fun _ _ => rfl, fun _ _ => rfl⟩
  unfold procEnd
  by_cases hcnt : p.procCnt = 0
  · rw [if_neg (not_not.mpr hcnt), h0 hcnt]
  · rw [if_pos hcnt]
    simp only [hnone, Bool.false_eq_true, if_false]
    have hpart := hpost.procRefill { p.d with pidxWrb := pidxWrb, pidx := p.pidx } pidxPend fill
    have hshift := pgShift_frame.procRefill (fun _ _ _ => rfl)
      { p.d with pidxWrb := pidxWrb, pidx := p.pidx } pidxPend fill
    generalize procRefill { p.d with pidxWrb := pidxWrb, pidx := p.pidx } pidxPend fill = d
      at hpart hshift ⊢
    have hpidx : d.pidx = p.pidx := congrArg Prod.snd hpart
    show d.way d.pidx = _
    rw [hpidx]
    exact way_congr (congrArg Prod.fst hpart) hshift p.pidx

/-- What the loop has counted and not written back. -/
theorem iterate_upNext (p : Proc) (k : ℕ) :
    (Proc.upNext^[k] p).d.conf = p.d.conf ∧ (Proc.upNext^[k] p).procCnt = p.procCnt + k ∧
      (p.ret = none → (Proc.upNext^[k] p).ret = none) := by
  induction k with
  | zero => exact ⟨rfl, rfl, id⟩
  | succ k ih =>
      rw [Function.iterate_succ_apply']
      exact ⟨(conf_upNext _).trans ih.1, congrArg (· + 1) ih.2.1, fun _ => rfl⟩

/-- **The next call begins with the entry that was refused.** -/
theorem way_processUpper {d : Descq} (hup : d.conf.fpDescqC2hPacket.isSome) (hs : d.Serves)
    {fp : ℕ → PktArgs → ℤ} {budget : ℤ} {k : ℕ} (h : d.refusal fp budget = some k)
    (fill : ℕ → FillOutcome) :
    (processUpper fp d budget fill).1.way (processUpper fp d budget fill).1.pidx =
      Way.next^[k] (d.way d.pidx) := by
  obtain ⟨-, -, hby, hway⟩ := procLoopBy_refused (p := d.proc) h
  obtain ⟨hconf, hcnt, hret⟩ := iterate_upNext d.proc k
  have hcnt' : (Proc.upNext^[k] d.proc).tried.procCnt = k := hcnt.trans (Nat.zero_add k)
  unfold processUpper
  rw [processWith_serves _ hs]
  show (Proc.finish (procLoopBy fp (d.entriesOf budget) d.proc) _ _ _).1.way
    (Proc.finish (procLoopBy fp (d.entriesOf budget) d.proc) _ _ _).1.pidx = _
  rw [hby]
  unfold Proc.finish
  rw [show (Proc.upNext^[k] d.proc).tried.ret = none from hret rfl]
  refine (way_procEnd ?_ ?_ _ _ _).trans ((way_tried _).trans hway)
  · rw [conf_tried, hconf]
    exact hup
  · intro h0
    rw [h0] at hcnt'
    subst hcnt'
    show d.pidx = d.proc.tried.d.pidx
    unfold Proc.tried
    split_ifs
    · rfl
    · rfl

/-! ## Runs -/

/-- A queue with a handler, and the size of its buffers, whose shift is that of an `int`. -/
structure UpSized (d : Descq) : Prop where
  handler : d.conf.fpDescqC2hPacket.isSome
  shift : d.flq.pgShift ≤ 31

theorem UpSized.of_eq {d d' : Descq} (h : UpSized d) (hconf : d'.conf = d.conf)
    (hshift : d'.flq.pgShift = d.flq.pgShift) : UpSized d' :=
  ⟨by rw [hconf]; exact h.handler, by rw [hshift]; exact h.shift⟩

/-- The loop keeps the sizes. -/
theorem procLoopBy_sized (fp : ℕ → PktArgs → ℤ) (n : ℕ) (p : Proc) :
    (procLoopBy fp n p).d.conf = p.d.conf ∧
      (procLoopBy fp n p).d.flq.pgShift = p.d.flq.pgShift := by
  induction n generalizing fp p with
  | zero => exact ⟨rfl, rfl⟩
  | succ n ih =>
      have htried : p.tried.d.flq.pgShift = p.d.flq.pgShift := by
        unfold Proc.tried
        split_ifs
        · exact pgShift_frame.setLastLen _ _ _
        · rfl
      rw [procLoopBy_succ]
      split_ifs
      · exact ⟨rfl, rfl⟩
      · exact ⟨rfl, rfl⟩
      · exact ⟨conf_tried p, htried⟩
      · obtain ⟨hconf, hshift⟩ := ih (fun i => fp (i + 1)) p.upNext
        refine ⟨hconf.trans (conf_upNext p), hshift.trans ?_⟩
        show (wrbNext p.taken).flq.pgShift = _
        have hflq : (wrbNext p.taken).flq = p.taken.flq := by
          unfold wrbNext
          split_ifs
          · rfl
          · rfl
        rw [hflq]
        unfold Proc.taken
        split_ifs
        · exact htried
        · rfl

/-- A call keeps the sizes. -/
theorem UpSized.call {d : Descq} (h : UpSized d) (fp : ℕ → PktArgs → ℤ) (budget : ℤ)
    (fill : ℕ → FillOutcome) : UpSized (processUpper fp d budget fill).1 := by
  unfold processUpper
  by_cases hs : d.Serves
  swap
  · rw [processWith_idle _ hs]
    exact h
  obtain ⟨hconf, hshift⟩ := procLoopBy_sized fp (d.entriesOf budget) d.proc
  rw [processWith_serves _ hs]
  show UpSized (Proc.finish (procLoopBy fp (d.entriesOf budget) d.proc) _ _ _).1
  generalize procLoopBy fp (d.entriesOf budget) d.proc = p at hconf hshift ⊢
  have hp : UpSized p.d := h.of_eq hconf hshift
  have hframe : ServeFrame Descq.conf :=
    ⟨⟨⟨fun _ _ _ => rfl, fun _ _ => rfl, fun _ _ => rfl⟩, fun _ _ => rfl, fun _ _ => rfl,
      fun _ _ => rfl⟩, fun _ _ _ _ => rfl, fun _ _ _ => rfl⟩
  unfold Proc.finish
  cases p.ret with
  | some rv => exact hp
  | none =>
      exact hp.of_eq (hframe.procEnd p _ _ fill)
        (pgShift_frame.procEnd (fun _ _ _ => rfl) p _ _ fill)

theorem UpSized.step {d : Descq} (h : UpSized d) (e : RefusalEv) : UpSized (e.step d) := by
  cases e with
  | call budget fill fp => exact h.call fp budget fill
  | device wrb => exact h.of_eq rfl rfl

/-- **One call** keeps what it refuses just when that has no buffers. -/
theorem RefusalEv.kept_iff {d : Descq} (h : UpSized d) (e : RefusalEv) :
    e.Kept d ↔ e.NoBuffers d := by
  cases e with
  | device wrb => exact Iff.rfl
  | call budget fill fp =>
      have hone : ∀ k, d.Serves → d.refusal fp budget = some k →
          (procLoopBy fp (d.entriesOf budget) d.proc = procLoopBy takesAll k d.proc ↔
            (Way.next^[k] (d.way d.pidx)).entry.descUsed = false) := by
        intro k hs hk
        obtain ⟨-, hall, hby, hway⟩ := procLoopBy_refused (p := d.proc) hk
        have hsized := procLoopBy_sized takesAll k d.proc
        rw [hall] at hsized
        rw [hby, hall, tried_eq_iff (by rw [hsized.2]; exact h.shift)]
        exact iff_of_eq (congrArg (fun w : Way => w.entry.descUsed = false) hway)
      constructor
      · intro hkept k hs hk
        exact (hone k hs hk).mp (hkept k hs hk).1
      · intro hno k hs hk
        exact ⟨(hone k hs hk).mpr (hno k hs hk), way_processUpper h.handler hs hk fill⟩

/-- **A call that keeps what it refuses** is one that ends before it. -/
theorem RefusalEv.step_kept {d : Descq} {e : RefusalEv} (h : e.Kept d) :
    e.step d = e.stepTaking d := by
  cases e with
  | device wrb => rfl
  | call budget fill fp =>
      show (processUpper fp d budget fill).1 = d.callUntil budget fill (d.refusal fp budget)
      by_cases hs : d.Serves
      swap
      · have hidle : ∀ fp' b, processUpper fp' d b fill = (d, 0) :=
          fun _ _ => processWith_idle _ hs _ fill
        rw [hidle]
        cases d.refusal fp budget with
        | none => exact congrArg Prod.fst (hidle takesAll budget).symm
        | some k =>
            cases k with
            | zero => rfl
            | succ k => exact congrArg Prod.fst (hidle takesAll (k + 1 : ℕ)).symm
      have hserve : ∀ fp' b, processUpper fp' d b fill =
          (procLoopBy fp' (d.entriesOf b) d.proc).finish d.descWrb.wbPidx d.flq.pidxPend fill :=
        fun _ _ => processWith_serves _ hs _ fill
      cases hk : d.refusal fp budget with
      | none =>
          show _ = (processUpper takesAll d budget fill).1
          rw [hserve, hserve, procLoopBy_taken (p := d.proc) hk]
      | some k =>
          obtain ⟨hlt, -⟩ := procLoopBy_refused (p := d.proc) hk
          rw [hserve, (h k hs hk).1]
          cases k with
          | zero => rfl
          | succ k =>
              have hbudget : d.entriesOf (k + 1 : ℕ) = k + 1 := by
                have hle : k + 1 ≤ ringIdxDelta d.descWrb.wbPidx d.cidxWrb d.conf.rngszWrb :=
                  hlt.le.trans (procBudget_le budget _)
                unfold Descq.entriesOf procBudget
                rw [if_neg (by push_cast; omega)]
                exact Int.toNat_natCast _
              show _ = (processUpper takesAll d (k + 1 : ℕ) fill).1
              rw [hserve, hbudget]

/-- **A packet that is refused is kept**, in every run of calls and of the device, just when no
entry with buffers is refused: each entry that is refused is then as it was before it was tried,
the next call begins with it, and the queue is at every point as in the run without refusals. -/
theorem refused_kept_iff {d : Descq} (h : UpSized d) (evs : List RefusalEv) :
    (∀ pre e post, evs = pre ++ e :: post → e.Kept (pre.foldl RefusalEv.step d)) ∧
        (∀ pre post, evs = pre ++ post →
          pre.foldl RefusalEv.step d = pre.foldl RefusalEv.stepTaking d) ↔
      ∀ pre e post, evs = pre ++ e :: post → e.NoBuffers (pre.foldl RefusalEv.step d) := by
  have hiff : (∀ pre e post, evs = pre ++ e :: post → e.Kept (pre.foldl RefusalEv.step d)) ↔
      ∀ pre e post, evs = pre ++ e :: post → e.NoBuffers (pre.foldl RefusalEv.step d) :=
    calls_iff (I := UpSized) (P := fun _ => True) h (fun d e hd _ _ => hd.step e)
      (fun d e hd _ => e.kept_iff hd) (fun _ _ => trivial)
  rw [← hiff]
  refine and_iff_left_of_imp (fun hkept pre => ?_)
  induction pre using List.reverseRecOn with
  | nil => exact fun _ _ => rfl
  | append_singleton pre e ih =>
      intro post heq
      rw [List.append_assoc, List.singleton_append] at heq
      rw [List.foldl_append, List.foldl_append, ← ih _ heq]
      exact RefusalEv.step_kept (hkept pre e post heq)

/-! ## Concrete runs -/

/-- A queue just started, with a handler, and a packet of 100 bytes on its ring. -/
def packetWaiting : Descq :=
  { startedUp.q with
    descWrb := { startedUp.q.descWrb with
      mem := fun o => if o = 0 then cmplWord true 100 else 0
      wbPidx := 1 } }

/-- The handler refuses. -/
def refuseCall : RefusalEv := .call 0 newPages (fun _ _ => -1)

/-- And takes what there is. -/
def takeCall : RefusalEv := .call 0 newPages takesAll

theorem packetWaiting_sized : UpSized packetWaiting := ⟨by decide +kernel, by decide +kernel⟩

/-- The same queue with user data enabled, and an entry of user data alone. -/
def userWaiting : Descq :=
  { startedUp.q with
    conf := { startedUp.q.conf with cmplUddEn := true }
    descWrb := { startedUp.q.descWrb with mem := fun o => if o = 0 then 2 else 0, wbPidx := 1 } }

theorem userWaiting_sized : UpSized userWaiting := ⟨by decide +kernel, by decide +kernel⟩

/-- It is refused, and taken when it comes again. -/
theorem refused_kept_user :
    userWaiting.refusal (fun _ _ => -1) 0 = some 0 ∧ refuseCall.Kept userWaiting ∧
      [refuseCall, takeCall].foldl RefusalEv.step userWaiting =
        [refuseCall, takeCall].foldl RefusalEv.stepTaking userWaiting := by
  have hrefuse : userWaiting.refusal (fun _ _ => -1) 0 = some 0 := by decide +kernel
  have hkept := (refused_kept_iff userWaiting_sized [refuseCall, takeCall]).mpr
    (along_cons.mpr ⟨?_, along_cons.mpr ⟨?_, along_nil⟩⟩)
  · exact ⟨hrefuse, hkept.1 [] refuseCall [takeCall] rfl,
      hkept.2 [refuseCall, takeCall] [] rfl⟩
  · intro k _ hk
    obtain rfl : 0 = k := Option.some_inj.mp (hrefuse.symm.trans hk)
    decide +kernel
  · intro k _ hk
    have hnone : (refuseCall.step userWaiting).refusal takesAll 0 = none := by decide +kernel
    exact absurd (hnone.symm.trans hk) (Option.some_ne_none k).symm

/-- **A refusal takes a buffer.**  The packet is refused, and taken when it comes again: its buffer
has the length of the packet from the refusal on, and `avail` is less by a buffer for good. -/
theorem refusal_takes_buffer :
    packetWaiting.refusal (fun _ _ => -1) 0 = some 0 ∧
      packetWaiting.avail = 2 ∧ (packetWaiting.flq.sdesc 0).len = 4096 ∧
      (refuseCall.step packetWaiting).avail = 1 ∧
      ((refuseCall.step packetWaiting).flq.sdesc 0).len = 100 ∧
      ([refuseCall, takeCall].foldl RefusalEv.step packetWaiting).avail = 0 ∧
      ([takeCall].foldl RefusalEv.step packetWaiting).avail = 1 ∧
      ¬ refuseCall.Kept packetWaiting := by
  have hrefuse : packetWaiting.refusal (fun _ _ => -1) 0 = some 0 := by decide +kernel
  refine ⟨hrefuse, by decide +kernel, by decide +kernel, by decide +kernel, by decide +kernel,
    by decide +kernel, by decide +kernel, fun hkept => ?_⟩
  have hs : packetWaiting.Serves := ⟨by decide +kernel, by decide +kernel, by decide +kernel⟩
  have hused := (RefusalEv.kept_iff packetWaiting_sized refuseCall).mp hkept 0 hs hrefuse
  exact absurd hused (by decide +kernel)

end Qdma
