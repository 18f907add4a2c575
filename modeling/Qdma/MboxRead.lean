/-
# A context read through the mailbox

`qdma_descq_context_read` exists twice: on a PF it reads the contexts with indirect commands,
on a VF it sends a message to the PF, whose handler calls the PF's version.  The reply is taken
into `m_resp` and from there copied to `m_req`; the words the VF hands to its caller are those
of the message it sent, which `memset` cleared.

`context_read_alike_iff` says exactly when the two agree; `context_read_zeroes` is a queue whose
context the VF does not get to see.
-/
import Qdma.MboxStatus

namespace Qdma

/-! ## The two readings -/

/-- `qdma_descq_context_read` of a VF; `answer` is the mailbox between the message it sends and
the one it receives.  The return value and what is copied out. -/
def vfDescqContextRead (vf : VfDev) (qid : ℕ) (st c2h : Bool) (answer : MboxMsg → Option MboxMsg) :
    ℤ × Option VfUsed :=
  let op := VfOp.ctxtRead qid st c2h
  match mboxSendReq vf (op.request vf) with
  | (_, none) => (eagain, none)
  | (vf, some m) =>
      let (vf, rv) := mboxRecvResp vf m (answer m)
      if rv < 0 then (rv, none)
      else
        let (_, rv, used) := op.use vf m
        (rv, used)

/-- What the PF sees of a message of the function `vfId`. -/
def MboxMsg.from (m : MboxMsg) (vfId : ℕ) : MboxMsg := { m with src := vfId }

/-- What the PF's handler does with the message `m` of the function `vfId`, in a call in which
`before` comes before it and `after` behind it: nothing, if it does not get that far. -/
def pfEntry (pf : PfDev) (vfId : ℕ) (before after : List MboxMsg) (m : MboxMsg) : Option PfEntry :=
  (pfMboxProc (before ++ m.from vfId :: after) pf).2[before.length]?

/-- The messages the handler took before that. -/
def pfTaken (pf : PfDev) (vfId : ℕ) (before after : List MboxMsg) (m : MboxMsg) : List PfEntry :=
  (pfMboxProc (before ++ m.from vfId :: after) pf).2.take before.length

/-- The request the VF sends. -/
def readRequest (vf : VfDev) (qid : ℕ) (st c2h : Bool) : MboxMsg :=
  { (VfOp.ctxtRead qid st c2h).request vf with ack := false, wait := true, sent := false }

/-- The contexts `qdma_descq_context_read` reads and how many words of each. -/
def readSels (st c2h : Bool) : List (CtxtSel × ℕ) :=
  [(if c2h then .swC2h else .swH2c, 4), (if c2h then .hwC2h else .hwH2c, 2),
    (if c2h then .crC2h else .crH2c, 1), (.qid2vec, 1)]
    ++ if st && c2h then [(.wrb, 4), (.pftch, 2)] else []

/-- One of the commands the PF's read takes is answered with a time-out. -/
def PfDev.ReadBusy (p : PfDev) (st c2h : Bool) : Prop :=
  ∃ k < (readSels st c2h).length, p.cmdAns (p.cmds + k) = .busy

/-- The words the PF's read returns are all zero in the hardware. -/
def PfDev.ReadsZero (p : PfDev) (qid : ℕ) (st c2h : Bool) : Prop :=
  ∀ x ∈ readSels st c2h, ∀ i < x.2, p.ctxt x.1 (hwQid qid) i = 0

/-- **The VF's reading is the PF's**: one is negative exactly if the other is, and the words of
a reading that succeeds are the same. -/
def ReadAlike (v : ℤ × Option VfUsed) (p : PfDev × HwDescqContext × ℤ) : Prop :=
  (v.1 < 0 ↔ p.2.2 < 0) ∧ (0 ≤ p.2.2 → v.2 = some (.context p.2.1))

/-! ## The PF's reading -/

/-- A command that reads leaves the device as it is, its clock apart. -/
theorem ctextRead_eq (d : PfDev) (qid : ℕ) (sel : CtxtSel) :
    ∃ rv, hwIndirectCtextProg d qid .rd sel false = ({ d with cmds := d.cmds + 1 }, rv) ∧
      (d.cmdAns d.cmds = .busy ∧ rv < 0 ∨ d.cmdAns d.cmds ≠ .busy ∧ ¬ rv < 0) := by
  unfold hwIndirectCtextProg
  cases h : d.cmdAns d.cmds with
  | busy => exact ⟨ebusy, rfl, .inl ⟨rfl, by decide⟩⟩
  | _ => exact ⟨1, rfl, .inr ⟨by simp, by decide⟩⟩

/-- A series of reads fails exactly if one of its commands is answered with a time-out; else
every word that is stored is one of the device as it was. -/
theorem ctextReads_spec (qid : ℕ)
    (reads : List (CtxtSel × (HwDescqContext → PfDev → HwDescqContext)))
    (hstore : ∀ x ∈ reads, ∀ (c : HwDescqContext) (d : PfDev) (k : ℕ),
      x.2 c { d with cmds := k } = x.2 c d)
    (c : HwDescqContext) (d : PfDev) {n : ℕ} (hn : reads.length = n) :
    ((∃ k < n, d.cmdAns (d.cmds + k) = .busy) ∧ (ctextReads qid reads c d).2.2 < 0) ∨
      (¬ (∃ k < n, d.cmdAns (d.cmds + k) = .busy) ∧
        (ctextReads qid reads c d).2 = (reads.foldl (fun c x => x.2 c d) c, 0)) := by
  subst hn
  induction reads generalizing c d with
  | nil => exact .inr ⟨by simp, rfl⟩
  | cons x reads ih =>
      obtain ⟨sel, store⟩ := x
      have hsplit : (∃ k < (reads.length + 1), d.cmdAns (d.cmds + k) = .busy) ↔
          d.cmdAns d.cmds = .busy ∨ ∃ k < reads.length, d.cmdAns (d.cmds + 1 + k) = .busy := by
        constructor
        · rintro ⟨_ | k, hk, hbusy⟩
          · exact .inl hbusy
          · exact .inr ⟨k, by omega, by rw [Nat.add_assoc, Nat.add_comm 1]; exact hbusy⟩
        · rintro (hbusy | ⟨k, hk, hbusy⟩)
          · exact ⟨0, by omega, hbusy⟩
          · exact ⟨k + 1, by omega, by rw [Nat.add_comm k, ← Nat.add_assoc]; exact hbusy⟩
      obtain ⟨rv, hcmd, ⟨hbusy, hrv⟩ | ⟨hbusy, hrv⟩⟩ := ctextRead_eq d qid sel
      · rw [ctextReads, hcmd, List.length_cons, hsplit]
        simp only [if_pos hrv]
        exact .inl ⟨.inl hbusy, hrv⟩
      · have hrest := ih (fun x hx => hstore x (List.mem_cons_of_mem _ hx))
          (store c d) { d with cmds := d.cmds + 1 }
        have hfold : reads.foldl (fun c x => x.2 c { d with cmds := d.cmds + 1 }) (store c d)
            = reads.foldl (fun c x => x.2 c d) (store c d) := by
          apply List.foldl_ext
          intro c x hx
          exact hstore x (List.mem_cons_of_mem _ hx) c d _
        have hfirst : store c { d with cmds := d.cmds + 1 } = store c d :=
          hstore (sel, store) List.mem_cons_self c d _
        rw [hfold] at hrest
        rw [ctextReads, hcmd, List.length_cons, hsplit, List.foldl_cons]
        simp only [if_neg hrv, hfirst, hbusy, false_or]
        exact hrest

/-- The words of the contexts of a queue as they are in the hardware. -/
def PfDev.contextOf (p : PfDev) (qid : ℕ) (st c2h : Bool) : HwDescqContext :=
  let c : HwDescqContext :=
    { sw := p.ctxtWords (if c2h then .swC2h else .swH2c) qid 4
      hw := p.ctxtWords (if c2h then .hwC2h else .hwH2c) qid 2
      cr := p.ctxtWords (if c2h then .crC2h else .crH2c) qid 1
      qid2vec := p.ctxtWords .qid2vec qid 1 }
  if st && c2h then
    { c with wrb := p.ctxtWords .wrb qid 4, prefetch := p.ctxtWords .pftch qid 2 }
  else c

/-- **What the PF's `qdma_descq_context_read` returns.** -/
theorem contextRead_cases (p : PfDev) (qid : ℕ) (st c2h : Bool) :
    (p.ReadBusy st c2h ∧ (qdmaDescqContextRead p qid st c2h).2.2 < 0) ∨
      (¬ p.ReadBusy st c2h ∧
        (qdmaDescqContextRead p qid st c2h).2 = (p.contextOf qid st c2h, 0)) := by
  unfold qdmaDescqContextRead PfDev.ReadBusy readSels PfDev.contextOf
  cases st && c2h with
  | false =>
      refine ctextReads_spec qid _ ?_ {} p rfl
      simp [PfDev.ctxtWords]
  | true =>
      refine ctextReads_spec qid _ ?_ {} p rfl
      simp [PfDev.ctxtWords]

theorem ctxtWords_eq_zero (p : PfDev) (sel : CtxtSel) (qid n : ℕ) :
    p.ctxtWords sel qid n = List.replicate n 0 ↔ ∀ i < n, p.ctxt sel (hwQid qid) i = 0 := by
  rw [List.eq_replicate_iff, PfDev.ctxtWords, List.length_map, List.length_range]
  simp

/-- A context without a word set is one `memset` leaves behind. -/
theorem contextOf_eq_empty_iff (p : PfDev) (qid : ℕ) (st c2h : Bool) :
    p.contextOf qid st c2h = {} ↔ p.ReadsZero qid st c2h := by
  have h4 : ∀ sel, p.ctxtWords sel qid 4 = [0, 0, 0, 0] ↔ ∀ i < 4, p.ctxt sel (hwQid qid) i = 0 :=
    fun sel => ctxtWords_eq_zero p sel qid 4
  have h2 : ∀ sel, p.ctxtWords sel qid 2 = [0, 0] ↔ ∀ i < 2, p.ctxt sel (hwQid qid) i = 0 :=
    fun sel => ctxtWords_eq_zero p sel qid 2
  have h1 : ∀ sel, p.ctxtWords sel qid 1 = [0] ↔ ∀ i < 1, p.ctxt sel (hwQid qid) i = 0 :=
    fun sel => ctxtWords_eq_zero p sel qid 1
  unfold PfDev.contextOf PfDev.ReadsZero readSels
  simp only [List.forall_mem_append, List.forall_mem_cons]
  cases st && c2h with
  | false =>
      simp only [Bool.false_eq_true, if_false, HwDescqContext.mk.injEq, h4, h2, h1]
      simp
  | true =>
      simp only [if_true, HwDescqContext.mk.injEq, h4, h2, h1, List.forall_mem_cons]
      constructor
      · rintro ⟨hsw, hpf, hwrb, hhw, hcr, hq⟩
        exact ⟨⟨hsw, hhw, hcr, hq, by simp⟩, hwrb, hpf, by simp⟩
      · rintro ⟨⟨hsw, hhw, hcr, hq, -⟩, hwrb, hpf, -⟩
        exact ⟨hsw, hpf, hwrb, hhw, hcr, hq⟩

/-! ## The handler -/

/-- The status after a series of messages. -/
def stuck (s : ℤ) (es : List PfEntry) : ℤ :=
  es.foldl (stick PfEntry.Refused PfEntry.Failed PfEntry.code) s

/-- An entry of the log of the handler's loop is answered with the status its predecessors
leave. -/
theorem pfProcLoop_entry (ms : List MboxMsg) (d : PfDev) (s : ℤ) {i : ℕ} {e : PfEntry}
    (h : (pfProcLoop ms d s).2[i]? = some e) :
    (pfProcOne e.1 (stuck s ((pfProcLoop ms d s).2.take i)) e.2.1).2.2.1 = e.2.2 := by
  induction ms generalizing d s i with
  | nil => exact absurd h (by simp [pfProcLoop])
  | cons m ms ih =>
      rw [pfProcLoop] at h ⊢
      simp only at h ⊢
      have hstatus := pfProcOne_status d s m (pfProcOne d s m).2.2.1
      split_ifs at h ⊢ with hmore
      · cases i with
        | zero =>
            obtain rfl := Option.some.inj h
            rfl
        | succ i =>
            rw [List.take_succ_cons, stuck, List.foldl_cons, ← hstatus]
            exact ih _ _ h
      · cases i with
        | zero =>
            obtain rfl := Option.some.inj h
            rfl
        | succ i => exact absurd h (by simp)

theorem PfEntry.code_neg (e : PfEntry) : e.code < 0 := by
  unfold PfEntry.code
  split_ifs <;> decide

/-- The status stays good exactly if nothing is refused and nothing that waits fails; else it
is negative. -/
theorem stuck_cases (es : List PfEntry) {s : ℤ} (hs : s ≤ 0) :
    stuck s es ≤ 0 ∧ (stuck s es = 0 ↔ s = 0 ∧ ∀ e ∈ es, ¬ e.Refused ∧ ¬ e.Failed) := by
  induction es generalizing s with
  | nil => exact ⟨hs, by simp [stuck]⟩
  | cons e es ih =>
      have hstick : stick PfEntry.Refused PfEntry.Failed PfEntry.code s e ≤ 0 ∧
          (stick PfEntry.Refused PfEntry.Failed PfEntry.code s e = 0 ↔
            s = 0 ∧ ¬ e.Refused ∧ ¬ e.Failed) := by
        have hcode := e.code_neg
        unfold stick
        by_cases hr : e.Refused
        · rw [if_pos hr]
          exact ⟨hcode.le, by simp [hr, hcode.ne]⟩
        · rw [if_neg hr]
          by_cases hf : e.Failed
          · by_cases h0 : s = 0
            · simp [hf, h0]
            · simp [hf, h0, hs]
          · simp [hf, hr, hs]
      obtain ⟨hle, hzero⟩ := ih hstick.1
      rw [stuck, List.foldl_cons]
      refine ⟨hle, hzero.trans ?_⟩
      rw [hstick.2, List.forall_mem_cons, and_assoc]

/-- The answer to a request to read: the request itself with the words read, and the status of
the PF's function unless one is left over. -/
theorem pfProcOne_read {p : PfDev} {s : ℤ} {m r : MboxMsg} (hop : m.op = .qctxtRd)
    (hack : m.ack = false) (hwait : m.wait = true) (h : (pfProcOne p s m).2.2.1 = some r) :
    r.op = .qctxtRd ∧ r.ack = true ∧ r.wait = true ∧
      r.status = statusOf (qdmaDescqContextRead p m.qctxt.qid m.qctxt.st m.qctxt.c2h).2.2 s := by
  unfold pfProcOne pfProcOp at h
  simp only [hack, hop, hwait, Bool.false_eq_true, if_false, if_true, Option.getD_none] at h
  split_ifs at h with hsent
  obtain rfl := Option.some.inj h
  exact ⟨rfl, rfl, rfl, rfl⟩

/-! ## The exchange -/

/-- What the VF makes of a reply that acknowledges its request. -/
theorem vfDescqContextRead_reply {vf : VfDev} {qid : ℕ} {st c2h : Bool}
    {answer : MboxMsg → Option MboxMsg} {r : MboxMsg} (hsend : vf.sendOk vf.sends = true)
    (hans : answer (readRequest vf qid st c2h) = some r) (hop : r.op = .qctxtRd)
    (hack : r.ack = true) (hwait : r.wait = true) (hstatus : r.status ≤ 0) :
    vfDescqContextRead vf qid st c2h answer
      = if r.status = 0 then (0, some (.context {})) else (r.status, none) := by
  have hreq : mboxSendReq vf ((VfOp.ctxtRead qid st c2h).request vf)
      = ({ vf with sends := vf.sends + 1, mReq := {} }, some (readRequest vf qid st c2h)) := by
    simp [mboxSendReq, VfDev.mboxSend, hsend, readRequest]
  have htake : ∀ d : VfDev, (d.takeAck r).mReq = r := by
    intro d
    simp [VfDev.takeAck, hwait]
  have hrecv : ∀ d : VfDev, mboxRecvResp d (readRequest vf qid st c2h) (some r)
      = (d.takeAck r, r.status) := by
    intro d
    have hsame : r.op = (readRequest vf qid st c2h).op := hop
    simp [mboxRecvResp, vfProcOne, hack, sendMsgRv, htake, ← hsame]
  unfold vfDescqContextRead
  simp only [hreq, hans, hrecv]
  by_cases h0 : r.status = 0
  · rw [if_pos h0, if_neg (by omega)]
    simp [VfOp.use, htake, hack, h0, readRequest, VfOp.request]
  · rw [if_neg h0, if_pos (by omega)]

/-- **When a context reads alike through the mailbox.**  The PF answers the request with the
message `r`, having met it on its device `p`.  The VF returns what the PF's function returns
exactly if the PF's read fails, or if nothing that was handled before the request in the same
call was refused or failed and all the words read are zero in the hardware. -/
theorem context_read_alike_iff (vf : VfDev) (pf : PfDev) (vfId qid : ℕ) (st c2h : Bool)
    (before after : List MboxMsg) {p : PfDev} {r : MboxMsg} (hsend : vf.sendOk vf.sends = true)
    (hans : pfEntry pf vfId before after (readRequest vf qid st c2h)
      = some (p, (readRequest vf qid st c2h).from vfId, some r)) :
    ReadAlike (vfDescqContextRead vf qid st c2h
        (fun m => (pfEntry pf vfId before after m).bind (fun e => e.2.2)))
      (qdmaDescqContextRead p qid st c2h) ↔
      p.ReadBusy st c2h ∨
        (∀ e ∈ pfTaken pf vfId before after (readRequest vf qid st c2h), ¬ e.Refused ∧ ¬ e.Failed) ∧
          p.ReadsZero qid st c2h := by
  set m := readRequest vf qid st c2h with hm
  set taken := pfTaken pf vfId before after m with htaken
  -- the answer is given with the status the messages before it leave
  have hentry : (pfProcOne p (stuck 0 taken) (m.from vfId)).2.2.1 = some r :=
    pfProcLoop_entry _ pf 0 hans
  obtain ⟨hle, hgood⟩ := stuck_cases taken (le_refl (0 : ℤ))
  obtain ⟨hop, hack, hwait, hstatus⟩ := pfProcOne_read rfl rfl rfl hentry
  have hneg : r.status ≤ 0 := by
    rw [hstatus, statusOf]
    split_ifs
    · decide
    · exact hle
  rw [vfDescqContextRead_reply hsend (by rw [← hm, hans]; rfl) hop hack hwait hneg]
  change r.status = statusOf (qdmaDescqContextRead p qid st c2h).2.2 (stuck 0 taken) at hstatus
  rcases contextRead_cases p qid st c2h with ⟨hbusy, hfail⟩ | ⟨hbusy, hok⟩
  · -- both fail
    have hne : r.status < 0 := by
      rw [hstatus, statusOf]
      split_ifs with h
      · decide
      · have hleft : stuck 0 taken ≠ 0 := fun h0 => h ⟨hfail, h0⟩
        omega
    rw [if_neg hne.ne]
    exact ⟨fun _ => .inl hbusy, fun _ => ⟨⟨fun _ => hfail, fun _ => hne⟩, fun h => by omega⟩⟩
  · have hrv0 : (qdmaDescqContextRead p qid st c2h).2.2 = 0 := congrArg Prod.snd hok
    have hc : (qdmaDescqContextRead p qid st c2h).2.1 = p.contextOf qid st c2h :=
      congrArg Prod.fst hok
    have hst : r.status = stuck 0 taken := by
      rw [hstatus, hrv0, statusOf, if_neg (fun h => absurd h.1 (lt_irrefl 0))]
    unfold ReadAlike
    rw [hrv0, hc, hst]
    by_cases h0 : stuck 0 taken = 0
    · have hclean := (hgood.mp h0).2
      rw [if_pos h0]
      simp only [hbusy, false_or, lt_irrefl, true_and, le_refl, true_imp_iff,
        Option.some.injEq, VfUsed.context.injEq]
      rw [← contextOf_eq_empty_iff, eq_comm]
      exact ⟨fun h => ⟨hclean, h⟩, fun h => h.2⟩
    · rw [if_neg h0]
      have hneg0 : stuck 0 taken < 0 := by omega
      constructor
      · rintro ⟨h, -⟩
        exact absurd (h.mp hneg0) (lt_irrefl 0)
      · rintro (h | ⟨h, -⟩)
        · exact absurd h hbusy
        · exact absurd (hgood.mpr ⟨rfl, h⟩) h0

/-- A queue whose contexts are all zero reads alike. -/
theorem context_read_alike_unset :
    ReadAlike (vfDescqContextRead {} 5 false false
        (fun m => (pfEntry {} 4 [] [] m).bind (fun e => e.2.2)))
      (qdmaDescqContextRead {} 5 false false) :=
  (context_read_alike_iff {} {} 4 5 false false [] [] (p := {}) rfl rfl).mpr
    (.inr ⟨fun _ he => absurd he List.not_mem_nil, fun _ _ _ _ => rfl⟩)

/-- A PF whose hardware has a word set in the software context of queue 5. -/
def pfFive : PfDev :=
  { ctxt := fun sel qid i => if sel = .swH2c ∧ qid = 5 ∧ i = 0 then 7 else 0 }

/-- **The VF reads zeroes**: the PF's function returns the word that is set, and the VF, its
request answered with good status, the context of the message it sent. -/
theorem context_read_zeroes :
    ¬ ∀ (vf : VfDev) (pf : PfDev) (vfId qid : ℕ) (st c2h : Bool) (before after : List MboxMsg)
      (p : PfDev) (r : MboxMsg), vf.sendOk vf.sends = true →
      pfEntry pf vfId before after (readRequest vf qid st c2h)
        = some (p, (readRequest vf qid st c2h).from vfId, some r) →
      ReadAlike (vfDescqContextRead vf qid st c2h
          (fun m => (pfEntry pf vfId before after m).bind (fun e => e.2.2)))
        (qdmaDescqContextRead p qid st c2h) := by
  intro h
  have hread := (h {} pfFive 4 5 false false [] [] pfFive _ rfl rfl).2 (by decide)
  exact absurd hread (by decide)

end Qdma
