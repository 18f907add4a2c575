/-
# Reading the tables from a VF

A VF has no access to the global registers: its `qdma_global_csr_get` asks its PF for one table
after another, and the PF's mailbox handler reads them register by register, with no lock, while the
drivers of all functions go on writing them.  Here the system of a VF and its PF goes together with
the registers, the words the handler has read so far and the operations under way.

`vf_csr_reads`: each word of a table that a VF has read is what its register held at a moment
between the call and its return, the moments in the order of the registers; so the table is that of
one moment if none of its registers changes in between, and `vf_csr_reads_torn` is one that is not.
`StepsTo` says of a single step of the mailbox where calls, results, requests and answers can come
from; that a call uses its own answer is the mailbox's invariant.
-/
import Qdma.Csr
import Qdma.MboxReply

namespace Qdma

open Exec RegFile Qdma.Reg

/-! ## Where things come from -/

/-- The call a label begins. -/
def MboxLabel.begins : MboxLabel → Option VfOp
  | .call op => some op
  | _ => none

/-- The PF handles a message. -/
def MboxLabel.handles : MboxLabel → Bool
  | .pf _ => true
  | _ => false

/-- A call that has not returned. -/
def MboxSys.Open (s : MboxSys) (c : VfCall) : Prop := s.waiting = some c ∨ c ∈ s.gap

/-- **What a step can bring about**: a new call has the next number, a result is that of an open
call or of the new one, a request with a number is that of the new call, and an answer is what the
PF makes of a request. -/
structure StepsTo (s : MboxSys) (l : MboxLabel) (s' : MboxSys) : Prop where
  ncall : s'.ncall = s.ncall + l.begins.toList.length
  opened : ∀ c, s'.Open c → s.Open c ∨ l.begins = some c.op ∧ c.id = s.ncall
  kept : s.results <+: s'.results
  results : ∀ o ∈ s'.results, o ∈ s.results ∨ (∃ c, s.Open c ∧ o.id = c.id ∧ o.op = c.op) ∨
    l.begins = some o.op ∧ o.id = s.ncall
  asked : ∀ x ∈ s'.pfInbox, x ∈ s.pfInbox ∨ x.1 = none ∨
    ∃ op, l.begins = some op ∧ x.1 = some s.ncall ∧ x.2.op = (op.request s.vf).op ∧
      x.2.csr = (op.request s.vf).csr
  waiting : l.handles = false → s.pfInbox <+: s'.pfInbox
  answered : ∀ p ∈ s'.processed, p ∈ s.processed ∨
    l.handles = true ∧ ∃ m st, s.pfInbox.head? = some (some p.1, m) ∧
      (pfProcOne s.pf st m).2.2.1 = some p.2

/-- A step in which nothing is asked and nothing answered. -/
theorem StepsTo.quiet {s s' : MboxSys} {l : MboxLabel} (hl : l.begins = none)
    (hn : s'.ncall = s.ncall) (hopen : ∀ c, s'.Open c → s.Open c)
    (hkept : s.results <+: s'.results)
    (hres : ∀ o ∈ s'.results, o ∈ s.results ∨ ∃ c, s.Open c ∧ o.id = c.id ∧ o.op = c.op)
    (hin : ∀ x ∈ s'.pfInbox, x ∈ s.pfInbox ∨ x.1 = none)
    (hwait : l.handles = false → s.pfInbox <+: s'.pfInbox)
    (hproc : s'.processed = s.processed) : StepsTo s l s' where
  ncall := by rw [hn, hl]; rfl
  opened c hc := .inl (hopen c hc)
  kept := hkept
  results o ho := (hres o ho).elim .inl (fun h => .inr (.inl h))
  asked x hx := (hin x hx).elim .inl (fun h => .inr (.inl h))
  waiting := hwait
  answered p hp := .inl (hproc ▸ hp)

/-- The end of a wait. -/
theorem wake_stepsTo {s : MboxSys} {l : MboxLabel} (hl : l.begins = none) {c : VfCall}
    (hc : s.waiting = some c) (inbox : List Tagged) (r : Option MboxMsg) :
    StepsTo s l (MboxSys.wake { s with inbox := inbox } c r) := by
  unfold MboxSys.wake
  generalize mboxRecvResp _ c.msg r = p
  obtain ⟨vf, rv⟩ := p
  simp only
  split_ifs with hneg
  · refine StepsTo.quiet hl rfl (fun c' hc' => ?_) (List.prefix_append _ _) (fun o ho => ?_)
      (fun x hx => .inl hx) (fun _ => List.prefix_refl _) rfl
    · exact .inr (hc'.resolve_left (fun h => by cases h))
    · rcases List.mem_append.mp ho with ho | ho
      · exact .inl ho
      · rw [List.mem_singleton.mp ho]
        exact .inr ⟨c, .inl hc, rfl, rfl⟩
  · refine StepsTo.quiet hl rfl (fun c' hc' => ?_) (List.prefix_refl _) (fun o ho => .inl ho)
      (fun x hx => .inl hx) (fun _ => List.prefix_refl _) rfl
    have hin := hc'.resolve_left (fun h => by cases h)
    rcases List.mem_append.mp hin with hin | hin
    · exact .inr hin
    · rw [List.mem_singleton.mp hin]
      exact .inl hc

/-- A call. -/
theorem call_stepsTo (s : MboxSys) (op : VfOp) : StepsTo s (.call op) (s.call op) := by
  unfold MboxSys.call
  simp only
  -- a call that returns at once
  have hret : ∀ (vf : VfDev) (rv : ℤ), StepsTo s (.call op)
      (MboxSys.ret { s with ncall := s.ncall + 1, vf := vf } ⟨s.ncall, op, op.request s.vf⟩ rv
        none) := by
    intro vf rv
    refine ⟨rfl, fun c hc => .inl hc, List.prefix_append _ _, fun o ho => ?_,
      fun x hx => .inl hx, fun _ => List.prefix_refl _, fun p hp => .inl hp⟩
    rcases List.mem_append.mp ho with ho | ho
    · exact .inl ho
    · rw [List.mem_singleton.mp ho]
      exact .inr (.inr ⟨rfl, rfl⟩)
  split_ifs with h0
  · exact hret s.vf einval
  · rcases hsend : mboxSendReq s.vf (op.request s.vf) with ⟨vf, _ | m⟩
    · exact hret vf eagain
    · have hm : m.op = (op.request s.vf).op ∧ m.csr = (op.request s.vf).csr := by
        unfold mboxSendReq at hsend
        simp only at hsend
        split_ifs at hsend
        · cases hsend
          exact ⟨rfl, rfl⟩
        · cases hsend
      refine ⟨rfl, fun c hc => ?_, List.prefix_refl _, fun o ho => .inl ho, fun x hx => ?_,
        fun _ => List.prefix_append _ _, fun p hp => .inl hp⟩
      · rcases hc with hc | hc
        · cases Option.some.inj hc
          exact .inr ⟨rfl, rfl⟩
        · exact .inl (.inr hc)
      · rcases List.mem_append.mp hx with hx | hx
        · exact .inl hx
        · rw [List.mem_singleton.mp hx]
          exact .inr (.inr ⟨op, rfl, rfl, hm⟩)

/-- The PF handles a message. -/
theorem pf_stepsTo (s : MboxSys) (first : Bool) : StepsTo s (.pf first) (s.step (.pf first)) := by
  have hhandles : (MboxLabel.pf first).handles = false →
      s.pfInbox <+: (s.step (.pf first)).pfInbox := fun h => nomatch h
  revert hhandles
  unfold MboxSys.step
  rcases hin : s.pfInbox with _ | ⟨x, rest⟩
  · intro hwait
    refine StepsTo.quiet rfl rfl (fun c hc => hc) (List.prefix_refl _) (fun o ho => .inl ho)
      (fun x hx => .inl hx) (fun _ => List.prefix_refl _) rfl
  · have hrest : ∀ y ∈ rest, y ∈ s.pfInbox := fun y hy => hin ▸ List.mem_cons_of_mem _ hy
    simp only
    unfold MboxSys.pfStep
    rcases hp : pfProcOne s.pf (if first then mboxStatusGood else s.pfStatus) x.2 with
      ⟨pf, status, resp, more⟩
    simp only
    rcases x with ⟨_ | id, m⟩
    · intro hwait
      exact StepsTo.quiet rfl rfl (fun c hc => hc) (List.prefix_refl _) (fun o ho => .inl ho)
        (fun y hy => .inl (hrest y hy)) (hin ▸ hwait) rfl
    · rcases resp with _ | r
      · intro hwait
        exact StepsTo.quiet rfl rfl (fun c hc => hc) (List.prefix_refl _) (fun o ho => .inl ho)
          (fun y hy => .inl (hrest y hy)) (hin ▸ hwait) rfl
      · intro hwait
        refine ⟨rfl, fun c hc => .inl hc, List.prefix_refl _, fun o ho => .inl ho,
          fun y hy => .inl (hrest y hy), hin ▸ hwait, fun p hp' => ?_⟩
        rcases List.mem_append.mp hp' with hp' | hp'
        · exact .inl hp'
        · rw [List.mem_singleton.mp hp']
          refine .inr ⟨rfl, m, if first then mboxStatusGood else s.pfStatus, ?_, by rw [hp]⟩
          rw [hin]
          rfl

/-- **Every step.** -/
theorem step_stepsTo (s : MboxSys) (l : MboxLabel) : StepsTo s l (s.step l) := by
  have hsame : ∀ s' : MboxSys, l.begins = none → s'.ncall = s.ncall → s'.waiting = s.waiting →
      s'.gap = s.gap → s'.results = s.results →
      (∃ new, s'.pfInbox = s.pfInbox ++ new ∧ ∀ x ∈ new, x.1 = none) →
      s'.processed = s.processed → StepsTo s l s' := by
    rintro s' hl hn hw hg hr ⟨new, hin, hnone⟩ hproc
    refine StepsTo.quiet hl hn (fun c hc => ?_) (by rw [hr]) (fun o ho => .inl (hr ▸ ho))
      (fun x hx => ?_) (fun _ => hin ▸ List.prefix_append _ _) hproc
    · unfold MboxSys.Open at hc ⊢
      rwa [hw, hg] at hc
    · rw [hin] at hx
      exact (List.mem_append.mp hx).imp_right (hnone x)
  have hsome : ∃ new, s.pfInbox = s.pfInbox ++ new ∧ ∀ x ∈ new, x.1 = none :=
    ⟨[], (List.append_nil _).symm, fun _ hx => absurd hx List.not_mem_nil⟩
  cases l with
  | call op => exact call_stepsTo s op
  | pf first => exact pf_stepsTo s first
  | recv =>
      unfold MboxSys.step
      rcases hw : s.waiting with _ | c
      · exact hsame s rfl rfl rfl rfl rfl hsome rfl
      · rcases hin : s.inbox with _ | ⟨x, rest⟩
        · exact hsame s rfl rfl rfl rfl rfl hsome rfl
        · exact wake_stepsTo rfl hw rest (some x.2)
  | timeout =>
      unfold MboxSys.step
      rcases hw : s.waiting with _ | c
      · exact hsame s rfl rfl rfl rfl rfl hsome rfl
      · exact wake_stepsTo rfl hw s.inbox none
  | timer => exact hsame _ rfl rfl rfl rfl rfl hsome rfl
  | use i =>
      rcases hg : s.gap[i]? with _ | c <;> simp only [MboxSys.step, hg]
      · exact hsame s rfl rfl rfl rfl rfl hsome rfl
      · have hmem : c ∈ s.gap := List.mem_of_getElem? hg
        refine StepsTo.quiet rfl rfl (fun c' hc' => ?_) (List.prefix_append _ _) (fun o ho => ?_)
          (fun x hx => .inl hx) (fun _ => List.prefix_refl _) rfl
        · exact hc'.imp id List.mem_of_mem_eraseIdx
        · rcases List.mem_append.mp ho with ho | ho
          · exact .inl ho
          · rw [List.mem_singleton.mp ho]
            exact .inr ⟨c, .inr hmem, rfl, rfl⟩
  | deliver i =>
      rcases hu : s.underway[i]? with _ | x <;> simp only [MboxSys.step, hu]
      · exact hsame s rfl rfl rfl rfl rfl hsome rfl
      · exact hsame _ rfl rfl rfl rfl rfl hsome rfl
  | toPf m =>
      refine hsame _ rfl rfl rfl rfl rfl ⟨[(none, m)], rfl, fun x hx => ?_⟩ rfl
      rw [List.mem_singleton.mp hx]
  | toVf m => exact hsame _ rfl rfl rfl rfl rfl hsome rfl

/-! ## The system -/

/-- The first register of the table of a type of `enum mbox_csr_type`. -/
def csrBase : ℕ → Option ℕ
  | 1 => some qdmaRegGlblRngSzBase
  | 2 => some qdmaRegC2hBufSzBase
  | 3 => some qdmaRegC2hTimerCntBase
  | 4 => some qdmaRegC2hCntThBase
  | _ => none

/-- The registers read for a table, in order: its own and then `QDMA_REG_GLBL_WB_ACC`. -/
def csrRegs (t : ℕ) : List ℕ :=
  match csrBase t with
  | some base => (List.range 16).map (fun i => base + 4 * i) ++ [qdmaRegGlblWbAcc]
  | none => []

/-- The registers the handler reads for a message. -/
def MboxMsg.csrRegs (m : MboxMsg) : List ℕ :=
  if m.ack = false ∧ m.op = .csr then Qdma.csrRegs m.csr.type else []

/-- A PF whose handler has read these words, of whichever table its message asks for. -/
def PfDev.sees (d : PfDev) (ws : List Word) : PfDev :=
  let v := (ws.take 16).map BitVec.toNat
  { d with
    ringSz := v
    bufSz := v
    timerCnt := v
    cntTh := v
    wbAcc := (ws.getD 16 0).toNat }

/-- A VF, its PF and the registers.  `running` are the operations under way with the writes each
has yet to make, `log` the writes made, and `reading` the words the handler has read for the first
message, each with the number of writes before it; `calls` are the calls of the VF and `returned`
the results, likewise with the number of writes before. -/
structure CsrSys where
  mbox : MboxSys
  regs : ℕ → Word
  running : List (List (ℕ × Word)) := []
  log : List (ℕ × Word) := []
  reading : List (Word × ℕ) := []
  calls : List (VfOp × ℕ) := []
  returned : List (VfResult × ℕ) := []

/-- The steps. -/
inductive CsrLabel where
  | mbox (l : MboxLabel)
  /-- The handler reads the next register for its message. -/
  | read
  /-- A function begins an operation. -/
  | op (op : RegOp)
  /-- An operation under way makes its next write. -/
  | write (i : ℕ)

/-- One step. -/
def CsrSys.step (s : CsrSys) : CsrLabel → CsrSys
  | .mbox l =>
      let m := MboxSys.step { s.mbox with pf := s.mbox.pf.sees (s.reading.map Prod.fst) } l
      { s with
        mbox := m
        reading := if l.handles then [] else s.reading
        calls := s.calls ++ (l.begins.map (fun op => (op, s.log.length))).toList
        returned := s.returned
          ++ (m.results.drop s.mbox.results.length).map (fun o => (o, s.log.length)) }
  | .read =>
      match s.mbox.pfInbox.head?.bind (fun x => x.2.csrRegs[s.reading.length]?) with
      | some a => { s with reading := s.reading ++ [(s.regs a, s.log.length)] }
      | none => s
  | .op op => { s with running := s.running ++ [op.writes] }
  | .write i =>
      match s.running[i]? with
      | some (w :: ws) =>
          { s with
            running := s.running.set i ws
            regs := puts s.regs [w]
            log := s.log ++ [w] }
      | _ => s

/-- The mailbox's own rules, and the handler comes to the end of a message when it has read what it
needs; the registers may change at any time. -/
def CsrLegal (s : CsrSys) : CsrLabel → Prop
  | .mbox l =>
      MboxLegal s.mbox l ∧ Matched s.mbox l ∧
        (l.handles = true → ∀ x ∈ s.mbox.pfInbox.head?, s.reading.length = x.2.csrRegs.length)
  | _ => True

instance CsrLegal.decidable (s : CsrSys) (l : CsrLabel) : Decidable (CsrLegal s l) := by
  cases l <;> unfold CsrLegal <;> infer_instance

/-! ## What a reply says -/

section Law

variable (r₀ : ℕ → Word)

/-- What register `a` held after the first `j` writes. -/
def CsrSys.held (s : CsrSys) (j a : ℕ) : Word := puts r₀ (s.log.take j) a

/-- The body of a message has table `t`, word by word as it was at moments from `k` to `b`, none
before the one of the word before. -/
def CsrSys.Shows (s : CsrSys) (k b t : ℕ) (c : MboxCsr) : Prop :=
  ∃ js : List ℕ, js.length = (csrRegs t).length ∧ js.Pairwise (· ≤ ·) ∧ (∀ j ∈ js, k ≤ j ∧ j ≤ b) ∧
    c.v ++ [c.wbAcc] = List.zipWith (fun j a => (s.held r₀ j a).toNat) js (csrRegs t)

/-- The request of a call. -/
def CsrSys.Asked (s : CsrSys) (id : ℕ) (m : MboxMsg) : Prop :=
  ∃ op k, s.calls[id]? = some (op, k) ∧ k ≤ s.log.length ∧
    ∀ t, op = .csrMsg t → m.op = .csr ∧ m.csr.type = t

/-- The answer to a call. -/
def CsrSys.Told (s : CsrSys) (id : ℕ) (m : MboxMsg) : Prop :=
  ∃ op k, s.calls[id]? = some (op, k) ∧ ∀ t, op = .csrMsg t → m.status = mboxStatusGood →
    s.Shows r₀ k s.log.length t m.csr

/-- **What a VF has read**, when it has: table `t`, each word as it was at a moment between the call
and the return `b`. -/
def CsrSys.Read (s : CsrSys) (o : VfResult) (b : ℕ) : Prop :=
  ∀ t, o.op = .csrMsg t → o.rv = 0 →
    ∃ k c, s.calls[o.id]? = some (.csrMsg t, k) ∧ s.Shows r₀ k b t c ∧
      o.used = some (.csr c.v c.wbAcc)

/-- **A table read whole**, when none of its registers changes between the call and the return. -/
def CsrSys.Whole (s : CsrSys) (o : VfResult) (b : ℕ) : Prop :=
  ∀ t k, o.op = .csrMsg t → o.rv = 0 → s.calls[o.id]? = some (.csrMsg t, k) →
    (∀ a ∈ csrRegs t, ∀ j, k ≤ j → j ≤ b → s.held r₀ j a = s.held r₀ k a) →
      ∃ c : MboxCsr, o.used = some (.csr c.v c.wbAcc) ∧
        c.v ++ [c.wbAcc] = (csrRegs t).map (fun a => (s.held r₀ k a).toNat)

/-- The words read for the message `m`, each as its register was, in order. -/
structure CsrSys.SoFar (s : CsrSys) (m : MboxMsg) : Prop where
  words : ∀ (i : ℕ) (w : Word) (j : ℕ), s.reading[i]? = some (w, j) →
    ∃ a, m.csrRegs[i]? = some a ∧ w = s.held r₀ j a
  order : (s.reading.map Prod.snd).Pairwise (· ≤ ·)
  past : ∀ p ∈ s.reading, p.2 ≤ s.log.length

theorem CsrSys.soFar_nil {s : CsrSys} (h : s.reading = []) (m : MboxMsg) : s.SoFar r₀ m := by
  constructor <;> simp [h]

/-- **What a PF answers** to a request for a table, if it answers it well. -/
theorem pfProcOne_csr {d : PfDev} {st : ℤ} {m r : MboxMsg} (hop : m.op = .csr)
    (hr : (pfProcOne d st m).2.2.1 = some r) (hgood : r.status = mboxStatusGood) :
    m.ack = false ∧ d.csrTable m.csr.type = some r.csr.v ∧ r.csr.wbAcc = d.wbAcc := by
  unfold pfProcOne at hr
  cases hack : m.ack with
  | true =>
      rw [if_pos hack] at hr
      cases hr
  | false =>
      rw [if_neg (by rw [hack]; decide)] at hr
      cases htable : d.csrTable m.csr.type with
      | none =>
          -- the type is refused, and the answer says so
          simp only [pfProcOp, hop, htable, Option.getD_some] at hr
          split_ifs at hr
          cases hr
          have hbad : statusOf 0 einval ≠ mboxStatusGood := by decide
          exact absurd hgood hbad
      | some v =>
          simp only [pfProcOp, hop, htable, Option.getD_none] at hr
          split_ifs at hr
          cases hr
          exact ⟨rfl, rfl, rfl⟩

/-- A type that is answered has its 17 registers, and the answer the words read. -/
theorem sees_csrTable {d : PfDev} {ws : List Word} {t : ℕ} {v : List ℕ}
    (h : (d.sees ws).csrTable t = some v) :
    (csrRegs t).length = 17 ∧ v = (ws.take 16).map BitVec.toNat := by
  unfold PfDev.csrTable PfDev.sees at h
  split at h <;> simp only [Option.some.injEq, reduceCtorEq] at h <;> exact ⟨rfl, h.symm⟩

/-- **A handler that has read all** shows the table as its words were. -/
theorem CsrSys.SoFar.shows {s : CsrSys} {m : MboxMsg} (h : s.SoFar r₀ m) {k t : ℕ}
    (hregs : m.csrRegs = csrRegs t) (hlen : s.reading.length = 17) (h17 : (csrRegs t).length = 17)
    (hk : ∀ p ∈ s.reading, k ≤ p.2) {c : MboxCsr}
    (hv : c.v = ((s.reading.map Prod.fst).take 16).map BitVec.toNat)
    (hacc : c.wbAcc = ((s.reading.map Prod.fst).getD 16 0).toNat) :
    s.Shows r₀ k s.log.length t c := by
  have hlen' : (s.reading.map Prod.fst).length = 17 := by rw [List.length_map, hlen]
  refine ⟨s.reading.map Prod.snd, by rw [List.length_map, hlen, h17], h.order, ?_, ?_⟩
  · intro j hj
    obtain ⟨p, hp, rfl⟩ := List.mem_map.mp hj
    exact ⟨hk p hp, h.past p hp⟩
  · have hall : c.v ++ [c.wbAcc] = (s.reading.map Prod.fst).map BitVec.toNat := by
      have hlast : (s.reading.map Prod.fst).getD 16 0 = (s.reading.map Prod.fst)[16] :=
        List.getD_eq_getElem _ _ (by omega)
      rw [hv, hacc, hlast, ← List.map_singleton, ← List.map_append, List.take_append_getElem,
        List.take_of_length_le (by omega)]
    rw [hall]
    apply List.ext_getElem
    · rw [List.length_map, hlen', List.length_zipWith, List.length_map, hlen, h17]
      rfl
    · intro i hi hi'
      have hi17 : i < s.reading.length := by simpa using hi
      obtain ⟨a, ha, hw⟩ := h.words i _ _ (List.getElem?_eq_getElem hi17)
      rw [hregs] at ha
      obtain ⟨hia, rfl⟩ := List.getElem?_eq_some_iff.mp ha
      rw [List.getElem_map, List.getElem_map, List.getElem_zipWith, List.getElem_map]
      exact congrArg BitVec.toNat hw

/-- A table whose registers stay is read whole. -/
theorem CsrSys.Read.whole {s : CsrSys} {o : VfResult} {b : ℕ} (h : s.Read r₀ o b) :
    s.Whole r₀ o b := by
  intro t k hop hrv hcall hstay
  obtain ⟨k', c, hcall', ⟨js, hlen, -, hjs, hwords⟩, hused⟩ := h t hop hrv
  obtain rfl : k = k' := congrArg Prod.snd (Option.some.inj (hcall.symm.trans hcall'))
  refine ⟨c, hused, ?_⟩
  rw [hwords]
  apply List.ext_getElem
  · rw [List.length_zipWith, List.length_map, hlen, Nat.min_self]
  · intro i hi hi'
    rw [List.length_map] at hi'
    rw [List.getElem_zipWith, List.getElem_map]
    obtain ⟨hle, hle'⟩ := hjs _ (List.getElem_mem (hlen ▸ hi'))
    rw [hstay _ (List.getElem_mem hi') _ hle hle']

/-! ## The invariant -/

/-- **What ties calls, requests and answers to the registers.** -/
structure CsrInv (s : CsrSys) : Prop where
  mbox : MboxInv s.mbox
  regs : s.regs = puts r₀ s.log
  count : s.calls.length = s.mbox.ncall
  opened : ∀ c, s.mbox.Open c → ∃ k, s.calls[c.id]? = some (c.op, k)
  results : ∀ o ∈ s.mbox.results, ∃ k, s.calls[o.id]? = some (o.op, k)
  asked : ∀ x ∈ s.mbox.pfInbox, ∀ id, x.1 = some id → s.Asked id x.2
  idle : s.mbox.pfInbox = [] → s.reading = []
  soFar : ∀ x ∈ s.mbox.pfInbox.head?, s.SoFar r₀ x.2
  since : ∀ x ∈ s.mbox.pfInbox.head?, ∀ id ∈ x.1, ∀ y ∈ s.calls[id]?, ∀ p ∈ s.reading, y.2 ≤ p.2
  answered : ∀ p ∈ s.mbox.processed, s.Told r₀ p.1 p.2
  matched : s.returned.map Prod.fst = s.mbox.results
  returned : ∀ p ∈ s.returned, p.2 ≤ s.log.length ∧ s.Read r₀ p.1 p.2

/-- All that has been read by now: a call that succeeds uses its own answer. -/
theorem read_of_told {s : CsrSys} (hmbox : Answered s.mbox)
    (htold : ∀ p ∈ s.mbox.processed, s.Told r₀ p.1 p.2) {o : VfResult} (ho : o ∈ s.mbox.results)
    {k : ℕ} (hk : s.calls[o.id]? = some (o.op, k)) : s.Read r₀ o s.log.length := by
  intro t hop hrv
  obtain ⟨r, hin, hgood, hused⟩ := hmbox o ho hrv
  obtain ⟨op, k', hcall, htold⟩ := htold _ hin
  obtain ⟨rfl, rfl⟩ := Prod.mk.inj (Option.some.inj (hk.symm.trans hcall))
  rw [hop] at hk hused
  exact ⟨k, r.csr, hk, htold t hop hgood, hused⟩

/-- Later on, what was asked and told still stands. -/
structure CsrSys.Later (s s' : CsrSys) : Prop where
  calls : s.calls <+: s'.calls
  log : s.log <+: s'.log

variable {r₀} {s s' : CsrSys}

theorem CsrSys.Later.call (h : s.Later s') {id : ℕ} {x : VfOp × ℕ} (hx : s.calls[id]? = some x) :
    s'.calls[id]? = some x := by
  obtain ⟨rest, hrest⟩ := h.calls
  rw [← hrest, List.getElem?_append_left (List.getElem?_eq_some_iff.mp hx).1]
  exact hx

/-- What a register held stays what it held. -/
theorem CsrSys.Later.held (h : s.Later s') {j : ℕ} (hj : j ≤ s.log.length) (a : ℕ) :
    s'.held r₀ j a = s.held r₀ j a := by
  obtain ⟨rest, hrest⟩ := h.log
  unfold CsrSys.held
  rw [← hrest, List.take_append_of_le_length hj]

theorem CsrSys.Later.shows (h : s.Later s') {k b b' : ℕ} (hb : b ≤ s.log.length) (hbb : b ≤ b')
    {t : ℕ} {c : MboxCsr} (hs : s.Shows r₀ k b t c) : s'.Shows r₀ k b' t c := by
  obtain ⟨js, hlen, horder, hjs, hwords⟩ := hs
  refine ⟨js, hlen, horder, fun j hj => ⟨(hjs j hj).1, (hjs j hj).2.trans hbb⟩, ?_⟩
  rw [hwords]
  apply List.ext_getElem
  · rw [List.length_zipWith, List.length_zipWith]
  · intro i hi hi'
    rw [List.length_zipWith] at hi
    rw [List.getElem_zipWith, List.getElem_zipWith]
    have hj := (hjs _ (List.getElem_mem (by omega : i < js.length))).2
    rw [h.held (hj.trans hb)]

theorem CsrSys.Later.asked (h : s.Later s') {id : ℕ} {m : MboxMsg} (ha : s.Asked id m) :
    s'.Asked id m := by
  obtain ⟨op, k, hcall, hk, hm⟩ := ha
  exact ⟨op, k, h.call hcall, hk.trans h.log.length_le, hm⟩

theorem CsrSys.Later.told (h : s.Later s') {id : ℕ} {m : MboxMsg} (ht : s.Told r₀ id m) :
    s'.Told r₀ id m := by
  obtain ⟨op, k, hcall, hm⟩ := ht
  refine ⟨op, k, h.call hcall, fun t hop hgood => ?_⟩
  exact h.shows (Nat.le_refl _) h.log.length_le (hm t hop hgood)

theorem CsrSys.Later.read (h : s.Later s') {o : VfResult} {b : ℕ} (hb : b ≤ s.log.length)
    (hr : s.Read r₀ o b) : s'.Read r₀ o b := by
  intro t hop hrv
  obtain ⟨k, c, hcall, hshows, hused⟩ := hr t hop hrv
  exact ⟨k, c, h.call hcall, h.shows hb (Nat.le_refl _) hshows, hused⟩

/-- So do the words read for a message, if no more are read. -/
theorem CsrSys.Later.soFar (h : s.Later s') (hread : s'.reading = s.reading) {m : MboxMsg}
    (hs : s.SoFar r₀ m) : s'.SoFar r₀ m := by
  constructor
  · intro i w j hij
    rw [hread] at hij
    obtain ⟨a, ha, hw⟩ := hs.words i w j hij
    have hj := hs.past (w, j) (List.mem_of_getElem? hij)
    exact ⟨a, ha, by rw [hw, h.held hj]⟩
  · rw [hread]
    exact hs.order
  · intro p hp
    rw [hread] at hp
    exact (hs.past p hp).trans h.log.length_le

/-! ## The steps -/

/-- What leaves the mailbox, the calls and the words read as they are. -/
theorem CsrInv.frame (h : CsrInv r₀ s) (hlater : s.Later s') (hregs : s'.regs = puts r₀ s'.log)
    (hmbox : s'.mbox = s.mbox) (hcalls : s'.calls = s.calls) (hread : s'.reading = s.reading)
    (hret : s'.returned = s.returned) : CsrInv r₀ s' := by
  constructor
  · exact hmbox ▸ h.mbox
  · exact hregs
  · rw [hmbox, hcalls]
    exact h.count
  · rw [hmbox, hcalls]
    exact h.opened
  · rw [hmbox, hcalls]
    exact h.results
  · rw [hmbox]
    exact fun x hx id hid => hlater.asked (h.asked x hx id hid)
  · rw [hmbox, hread]
    exact h.idle
  · rw [hmbox]
    exact fun x hx => hlater.soFar hread (h.soFar x hx)
  · rw [hmbox, hcalls, hread]
    exact h.since
  · rw [hmbox]
    exact fun p hp => hlater.told (h.answered p hp)
  · rw [hmbox, hret]
    exact h.matched
  · intro p hp
    obtain ⟨hle, hr⟩ := h.returned p (hret ▸ hp)
    exact ⟨hle.trans hlater.log.length_le, hlater.read hle hr⟩

/-- An operation begins. -/
theorem CsrInv.op (h : CsrInv r₀ s) (op : RegOp) : CsrInv r₀ (s.step (.op op)) :=
  h.frame ⟨List.prefix_refl _, List.prefix_refl _⟩ h.regs rfl rfl rfl rfl

/-- A write. -/
theorem CsrInv.write (h : CsrInv r₀ s) (i : ℕ) : CsrInv r₀ (s.step (.write i)) := by
  unfold CsrSys.step
  simp only
  split
  · rename_i w ws hrun
    refine h.frame ⟨List.prefix_refl _, List.prefix_append _ _⟩ ?_ rfl rfl rfl rfl
    show puts s.regs [w] = puts r₀ (s.log ++ [w])
    rw [puts_append, h.regs]
  · exact h

/-- The handler reads a register. -/
theorem CsrInv.read (h : CsrInv r₀ s) : CsrInv r₀ (s.step .read) := by
  unfold CsrSys.step
  simp only
  split
  · rename_i a ha
    obtain ⟨x, hx, hreg⟩ := Option.bind_eq_some_iff.mp ha
    refine ⟨h.mbox, h.regs, h.count, h.opened, h.results, h.asked, ?_, ?_, ?_, h.answered,
      h.matched, h.returned⟩
    · intro hnil
      rw [hnil] at hx
      cases hx
    · intro y hy
      obtain rfl := Option.some.inj (hx.symm.trans hy)
      have hs := h.soFar x hx
      constructor
      · intro i w j hij
        simp only [List.getElem?_append] at hij
        split_ifs at hij with hlt
        · exact hs.words i w j hij
        · obtain ⟨hi, heq⟩ := List.getElem?_eq_some_iff.mp hij
          rw [List.length_singleton] at hi
          obtain rfl : i = s.reading.length := by omega
          rw [List.getElem_singleton] at heq
          obtain ⟨rfl, rfl⟩ := Prod.mk.inj heq
          refine ⟨a, hreg, ?_⟩
          show _ = puts r₀ (s.log.take s.log.length) a
          rw [List.take_length, h.regs]
      · show ((s.reading ++ [(s.regs a, s.log.length)]).map Prod.snd).Pairwise (· ≤ ·)
        rw [List.map_append, List.pairwise_append]
        refine ⟨hs.order, List.pairwise_singleton _ _, ?_⟩
        intro j hj j' hj'
        obtain ⟨p, hp, rfl⟩ := List.mem_map.mp hj
        obtain rfl := List.mem_singleton.mp hj'
        exact hs.past p hp
      · intro p hp
        rcases List.mem_append.mp hp with hp | hp
        · exact hs.past p hp
        · rw [List.mem_singleton.mp hp]
    · intro y hy id hid z hz p hp
      rcases List.mem_append.mp hp with hp | hp
      · exact h.since y hy id hid z hz p hp
      · rw [List.mem_singleton.mp hp]
        obtain ⟨op, k, hcall, hk, -⟩ := h.asked y (List.mem_of_mem_head? hy) id hid
        obtain rfl := Option.some.inj (hcall.symm.trans hz)
        exact hk
  · exact h

/-- A step of the mailbox. -/
theorem CsrInv.mail (h : CsrInv r₀ s) {l : MboxLabel} (hl : MboxLegal s.mbox l)
    (hok : Matched s.mbox l)
    (hdone : l.handles = true →
      ∀ x ∈ s.mbox.pfInbox.head?, s.reading.length = x.2.csrRegs.length) :
    CsrInv r₀ (s.step (.mbox l)) := by
  set m : MboxSys := { s.mbox with pf := s.mbox.pf.sees (s.reading.map Prod.fst) }
  have hinv : MboxInv (m.step l) := by
    refine mboxInv_step (s := m) ⟨h.mbox.replies, h.mbox.status, h.mbox.pfStatus, h.mbox.cleared,
      h.mbox.sent, h.mbox.gap, h.mbox.answered⟩ l ?_ ?_
    · cases l <;> exact hl
    · cases l <;> exact hok
  have hto := step_stepsTo m l
  have hlater : s.Later (s.step (.mbox l)) := ⟨List.prefix_append _ _, List.prefix_refl _⟩
  -- a call that begins is entered under its number
  have hnew : ∀ op, l.begins = some op →
      (s.step (.mbox l)).calls[s.mbox.ncall]? = some (op, s.log.length) := by
    intro op hop
    show (s.calls ++ (l.begins.map _).toList)[s.mbox.ncall]? = _
    rw [hop, ← h.count, List.getElem?_append_right (Nat.le_refl _), Nat.sub_self]
    rfl
  have hopened : ∀ c, (m.step l).Open c →
      ∃ k, (s.step (.mbox l)).calls[c.id]? = some (c.op, k) := by
    intro c hc
    rcases hto.opened c hc with hold | ⟨hop, hid⟩
    · obtain ⟨k, hk⟩ := h.opened c hold
      exact ⟨k, hlater.call hk⟩
    · exact ⟨s.log.length, hid ▸ hnew c.op hop⟩
  have hresults : ∀ o ∈ (m.step l).results,
      ∃ k, (s.step (.mbox l)).calls[o.id]? = some (o.op, k) := by
    intro o ho
    rcases hto.results o ho with hold | ⟨c, hc, hid, hop⟩ | ⟨hop, hid⟩
    · obtain ⟨k, hk⟩ := h.results o hold
      exact ⟨k, hlater.call hk⟩
    · obtain ⟨k, hk⟩ := h.opened c hc
      rw [hid, hop]
      exact ⟨k, hlater.call hk⟩
    · exact ⟨s.log.length, hid ▸ hnew o.op hop⟩
  have htold : ∀ p ∈ (m.step l).processed, (s.step (.mbox l)).Told r₀ p.1 p.2 := by
    intro p hp
    rcases hto.answered p hp with hold | ⟨hhandles, q, st, hin, hresp⟩
    · exact hlater.told (h.answered p hold)
    · have hmem : (some p.1, q) ∈ s.mbox.pfInbox := List.mem_of_mem_head? hin
      obtain ⟨op, k, hcall, hk, hq⟩ := h.asked _ hmem p.1 rfl
      refine hlater.told ⟨op, k, hcall, fun t hop hgood => ?_⟩
      obtain ⟨hcsr, htype⟩ := hq t hop
      obtain ⟨hack, hv, hacc⟩ := pfProcOne_csr hcsr hresp hgood
      rw [htype] at hv
      obtain ⟨h17, hv⟩ := sees_csrTable hv
      have hregs : q.csrRegs = csrRegs t := by
        unfold MboxMsg.csrRegs
        rw [if_pos ⟨hack, hcsr⟩, htype]
      have hlen : s.reading.length = 17 := by rw [hdone hhandles _ hin, hregs, h17]
      exact (h.soFar _ hin).shows r₀ hregs hlen h17 (h.since _ hin p.1 rfl _ hcall) hv hacc
  -- the message being read for stays the first one until it is handled
  have hnext : (s.step (.mbox l)).reading = [] ∨ (s.step (.mbox l)).reading = s.reading ∧
      (m.step l).pfInbox.head? = s.mbox.pfInbox.head? := by
    show (if l.handles = true then [] else s.reading) = [] ∨
      (if l.handles = true then [] else s.reading) = s.reading ∧ _
    cases hhandles : l.handles with
    | true => exact .inl (if_pos rfl)
    | false =>
        rw [if_neg (by decide)]
        obtain ⟨new, hnew⟩ := hto.waiting hhandles
        change s.mbox.pfInbox ++ new = (m.step l).pfInbox at hnew
        rcases hin : s.mbox.pfInbox with _ | ⟨x, rest⟩
        · exact .inl (h.idle hin)
        · rw [← hnew, hin]
          exact .inr ⟨rfl, rfl⟩
  refine ⟨hinv, h.regs, ?_, hopened, hresults, ?_, ?_, ?_, ?_, htold, ?_, ?_⟩
  · show (s.calls ++ (l.begins.map _).toList).length = (m.step l).ncall
    rw [List.length_append, h.count, hto.ncall]
    cases l.begins <;> rfl
  · intro x hx id hid
    rcases hto.asked x hx with hold | hnone | ⟨op, hop, hnum, hmop, hcsr⟩
    · exact hlater.asked (h.asked x hold id hid)
    · rw [hnone] at hid
      cases hid
    · obtain rfl : s.mbox.ncall = id := Option.some.inj (hnum.symm.trans hid)
      refine ⟨op, s.log.length, hnew op hop, Nat.le_refl _, fun t ht => ?_⟩
      rw [hmop, hcsr, ht]
      exact ⟨rfl, rfl⟩
  · intro hnil
    rcases hnext with hread | ⟨hread, hhead⟩
    · exact hread
    · rw [hread]
      change (m.step l).pfInbox = [] at hnil
      rw [hnil] at hhead
      exact h.idle (List.head?_eq_none_iff.mp hhead.symm)
  · intro x hx
    rcases hnext with hread | ⟨hread, hhead⟩
    · exact CsrSys.soFar_nil r₀ hread x.2
    · exact hlater.soFar hread (h.soFar x (hhead ▸ hx))
  · intro x hx id hid y hy p hp
    rcases hnext with hread | ⟨hread, hhead⟩
    · rw [hread] at hp
      exact absurd hp List.not_mem_nil
    · rw [hread] at hp
      have hx' : x ∈ s.mbox.pfInbox.head? := hhead ▸ hx
      obtain ⟨op, k, hcall, -⟩ := h.asked x (List.mem_of_mem_head? hx') id hid
      obtain rfl := Option.some.inj ((hlater.call hcall).symm.trans hy)
      exact h.since x hx' id hid _ hcall p hp
  · obtain ⟨rest, hrest⟩ := hto.kept
    show (s.returned ++ ((m.step l).results.drop s.mbox.results.length).map _).map Prod.fst
      = (m.step l).results
    rw [List.map_append, h.matched, List.map_map, ← hrest, List.drop_left]
    exact congrArg _ (List.map_id rest)
  · intro p hp
    rcases List.mem_append.mp hp with hp | hp
    · obtain ⟨hle, hread⟩ := h.returned p hp
      exact ⟨hle, hlater.read hle hread⟩
    · obtain ⟨o, ho, rfl⟩ := List.mem_map.mp hp
      have ho' : o ∈ (m.step l).results := List.mem_of_mem_drop ho
      obtain ⟨k, hk⟩ := hresults o ho'
      exact ⟨Nat.le_refl _, read_of_told r₀ hinv.answered htold ho' hk⟩

/-- **What a VF reads.**  Whatever is written to the registers meanwhile, write by write, each word
of a table that a call of `qdma_csr_msg` returns, the accumulation last, is what its register held
at a moment between the call and its return, and none was read before the one it follows; so the
table is whole if its registers stay as they are in between. -/
theorem vf_csr_reads {vfId : ℕ} {vf : VfDev} {pf : PfDev} {evs : List CsrLabel}
    (h : Run CsrSys.step CsrLegal
      { mbox := { vfId := vfId, vf := vf, pf := pf }, regs := r₀ } evs s) :
    s.returned.map Prod.fst = s.mbox.results ∧
      ∀ p ∈ s.returned, s.Read r₀ p.1 p.2 ∧ s.Whole r₀ p.1 p.2 := by
  have hinv : CsrInv r₀ s := by
    refine h.invariant ⟨?_, rfl, rfl, ?_, ?_, ?_, fun _ => rfl, ?_, ?_, ?_, rfl, ?_⟩
      (fun s l hs hok => ?_)
    · constructor <;> simp [Answered, mboxStatusGood]
    · rintro c (hc | hc)
      · cases hc
      · cases hc
    · exact fun o ho => absurd ho List.not_mem_nil
    · exact fun x hx => absurd hx List.not_mem_nil
    · exact fun x hx => absurd hx (Option.not_mem_none x)
    · exact fun x hx => absurd hx (Option.not_mem_none x)
    · exact fun p hp => absurd hp List.not_mem_nil
    · exact fun p hp => absurd hp List.not_mem_nil
    · cases l with
      | mbox l => exact hs.mail hok.1 hok.2.1 hok.2.2
      | read => exact hs.read
      | op op => exact hs.op op
      | write i => exact hs.write i
  exact ⟨hinv.matched, fun p hp => ⟨(hinv.returned p hp).2, (hinv.returned p hp).2.whole⟩⟩

end Law

/-- A VF asks for the ring sizes, which function 0 sets to eight while they are read: the handler
has come to the third register when the writes pass it by. -/
def readWhileSet : List CsrLabel :=
  [.mbox (.call (.csrMsg 1)), .read, .read, .op (.globalCsrSet 0 (ringsOfSize 8))]
    ++ List.replicate 17 (.write 0) ++ List.replicate 15 .read
    ++ [.mbox (.pf true), .mbox (.deliver 0), .mbox .recv, .mbox (.use 0)]

/-- **A table no moment had**: two fours, and eights behind them. -/
theorem vf_csr_reads_torn :
    let s := readWhileSet.foldl CsrSys.step { mbox := vfFour, regs := fun _ => 4 }
    s.returned.map (fun p => (p.1.used, p.2))
        = [(some (.csr ([4, 4] ++ List.replicate 14 8) 1), 17)] ∧
      ∀ p ∈ s.returned, s.Read (fun _ => 4) p.1 p.2 :=
  ⟨by decide +kernel,
    fun p hp => ((vf_csr_reads (Run.of_admits readWhileSet (by decide +kernel))).2 p hp).1⟩

end Qdma
