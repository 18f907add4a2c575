/-
# Requests of a VF and the replies they get

One VF and its PF, with the mailboxes between them: calls of the VF's operations, the PF's
handler working through its mailbox, replies under way for as long as they please, messages
nobody asked for, and the VF's mailbox timer.  A step is what one of them does under its
lock; a call of `qdma_mbox_send_msg` keeps the VF's lock from sending to the end of its wait,
and the caller reads `m_req` after that, without it.

A reply says only which operation it answers.  `mbox_request_response` names the steps at
which that is enough (`Matched`): along them a call that succeeds was processed by the PF and
uses the reply to that call.  `timeout_succeeds` is a call that succeeds without a reply.
-/
import Qdma.MboxStatus
import Qdma.Exec

namespace Qdma

open Exec

/-! ## The system -/

/-- A call that has sent its request `msg`. -/
structure VfCall where
  id : ℕ
  op : VfOp
  msg : MboxMsg
  deriving DecidableEq

/-- A call that has returned: its return value and what it uses. -/
structure VfResult where
  id : ℕ
  op : VfOp
  rv : ℤ
  used : Option VfUsed
  deriving DecidableEq

/-- A message with the call it belongs to, if any. -/
abbrev Tagged := Option ℕ × MboxMsg

/-- A VF (with function id `vfId`) and its PF.  `waiting` is the call that holds the VF's
mailbox lock, `gap` are those that have yet to read `m_req`; `underway` and `inbox` are the
messages sent to the VF and those that have arrived, `pfInbox` those that have arrived at the
PF; `processed` are the requests the PF has answered, with its answers. -/
structure MboxSys where
  vfId : ℕ
  vf : VfDev := {}
  pf : PfDev := {}
  pfStatus : ℤ := mboxStatusGood
  pfInbox : List Tagged := []
  underway : List Tagged := []
  inbox : List Tagged := []
  ncall : ℕ := 0
  waiting : Option VfCall := none
  gap : List VfCall := []
  processed : List (ℕ × MboxMsg) := []
  results : List VfResult := []

/-- The steps. -/
inductive MboxLabel where
  /-- An operation of the VF is called and sends its request. -/
  | call (op : VfOp)
  /-- The waiting call takes the first message of the mailbox. -/
  | recv
  /-- The second is over and the mailbox is empty. -/
  | timeout
  /-- The VF's mailbox timer. -/
  | timer
  /-- A call goes on after `qdma_mbox_send_msg`. -/
  | use (i : ℕ)
  /-- The PF handles a message, the first of a call of its handler or a further one. -/
  | pf (first : Bool)
  /-- A message reaches the VF's mailbox. -/
  | deliver (i : ℕ)
  /-- Another function sends the PF a message. -/
  | toPf (m : MboxMsg)
  /-- The PF sends the VF a message nobody asked for. -/
  | toVf (m : MboxMsg)

/-- A call returns. -/
def MboxSys.ret (s : MboxSys) (c : VfCall) (rv : ℤ) (used : Option VfUsed) : MboxSys :=
  { s with results := s.results ++ [⟨c.id, c.op, rv, used⟩] }

/-- A call up to its wait.  The PF sees the function id of the VF as the source. -/
def MboxSys.call (s : MboxSys) (op : VfOp) : MboxSys :=
  let c : VfCall := ⟨s.ncall, op, op.request s.vf⟩
  let s := { s with ncall := s.ncall + 1 }
  if op = .csrMsg 0 then s.ret c einval none
  else
    match mboxSendReq s.vf c.msg with
    | (vf, none) => { s with vf := vf }.ret c eagain none
    | (vf, some m) =>
        { s with
          vf := vf
          waiting := some { c with msg := m }
          pfInbox := s.pfInbox ++ [(some c.id, { m with src := s.vfId })] }

/-- The end of the wait of the call `c` with the message `r`, if one came. -/
def MboxSys.wake (s : MboxSys) (c : VfCall) (r : Option MboxMsg) : MboxSys :=
  let (vf, rv) := mboxRecvResp s.vf c.msg r
  let s := { s with vf := vf, waiting := none }
  if rv < 0 then s.ret c rv none else { s with gap := s.gap ++ [c] }

/-- The PF handles the message `x`. -/
def MboxSys.pfStep (s : MboxSys) (first : Bool) (x : Tagged) : MboxSys :=
  let (pf, status, resp, _) :=
    pfProcOne s.pf (if first then mboxStatusGood else s.pfStatus) x.2
  let s := { s with pf := pf, pfStatus := status }
  match x.1, resp with
  | some id, some r =>
      { s with processed := s.processed ++ [(id, r)], underway := s.underway ++ [(some id, r)] }
  | _, _ => s

/-- One step. -/
def MboxSys.step (s : MboxSys) : MboxLabel → MboxSys
  | .call op => s.call op
  | .recv =>
      match s.waiting, s.inbox with
      | some c, x :: rest => { s with inbox := rest }.wake c (some x.2)
      | _, _ => s
  | .timeout =>
      match s.waiting with
      | some c => s.wake c none
      | none => s
  | .timer =>
      let (vf, log) := vfMboxProc (s.inbox.map Prod.snd) s.vf
      { s with vf := vf, inbox := s.inbox.drop log.length }
  | .use i =>
      match s.gap[i]? with
      | some c =>
          let (vf, rv, used) := c.op.use s.vf c.msg
          { s with vf := vf, gap := s.gap.eraseIdx i }.ret c rv used
      | none => s
  | .pf first =>
      match s.pfInbox with
      | x :: rest => { s with pfInbox := rest }.pfStep first x
      | [] => s
  | .deliver i =>
      match s.underway[i]? with
      | some x => { s with underway := s.underway.eraseIdx i, inbox := s.inbox ++ [x] }
      | none => s
  | .toPf m => { s with pfInbox := s.pfInbox ++ [(none, m)] }
  | .toVf m => { s with underway := s.underway ++ [(none, m)] }

/-- A call and the timer need the mailbox lock; a wait ends with a message or without one. -/
def MboxLegal (s : MboxSys) : MboxLabel → Prop
  | .call _ => s.waiting = none
  | .recv => s.waiting ≠ none ∧ s.inbox ≠ []
  | .timeout => s.waiting ≠ none ∧ s.inbox = []
  | .timer => s.waiting = none
  | .use i => i < s.gap.length
  | .pf _ => s.pfInbox ≠ []
  | .deliver i => i < s.underway.length
  | .toPf _ => True
  | .toVf _ => True

instance (s : MboxSys) (l : MboxLabel) : Decidable (MboxLegal s l) := by
  cases l <;> unfold MboxLegal <;> infer_instance

/-! ## Replies that match -/

/-- Operations that look at the `ack` of `m_req` again before they use it. -/
def VfOp.checksAck : VfOp → Bool
  | .setQrange _ => false
  | .csrMsg _ => false
  | _ => true

/-- The operation that reads a context. -/
def VfOp.reads : VfOp → Bool
  | .ctxtRead _ _ _ => true
  | _ => false

/-- A message that ends up in `m_req`. -/
def MboxMsg.Kept (m : MboxMsg) : Prop := m.ack = true ∧ m.wait = true

instance (m : MboxMsg) : Decidable m.Kept := inferInstanceAs (Decidable (_ ∧ _))

/-- The steps at which the operation is enough to tell a reply: the message a call takes, if
it acknowledges the operation of the call, is the reply to that call; a call that waits in
vain is one that looks at `ack`; nothing is sent, and nothing is kept in `m_req`, while a call
has yet to read it; and a context that was read is all zeroes. -/
def Matched (s : MboxSys) : MboxLabel → Prop
  | .call op => s.gap = [] ∨ op = .csrMsg 0 ∨ (mboxSendReq s.vf (op.request s.vf)).2 = none
  | .recv => ∀ c ∈ s.waiting, ∀ x ∈ s.inbox.head?, x.2.Kept → x.2.op = c.msg.op → x.1 = some c.id
  | .timeout => ∀ c ∈ s.waiting, c.op.checksAck = true
  | .timer => s.gap = [] ∨ ∀ x ∈ s.inbox, ¬ x.2.Kept
  | .use i => ∀ c ∈ s.gap[i]?, c.op.reads = true → s.vf.mReq.qctxt.context = {}
  | _ => True

instance (s : MboxSys) (l : MboxLabel) : Decidable (Matched s l) := by
  cases l <;> unfold Matched <;> infer_instance

/-- **The law of requests**: a call that succeeds was answered by the PF with good status, and
what it uses is what that answer says. -/
def Answered (s : MboxSys) : Prop :=
  ∀ o ∈ s.results, o.rv = 0 →
    ∃ r, (o.id, r) ∈ s.processed ∧ r.status = mboxStatusGood ∧ o.used = some (o.op.expected r)

/-! ## The invariant -/

/-- A call that may go on: without a reply it will see so, else `m_req` is its reply and the
status is good. -/
def GapOk (s : MboxSys) (c : VfCall) : Prop :=
  c.op.checksAck = true ∧ s.vf.mReq.ack = false ∨
    (c.id, s.vf.mReq) ∈ s.processed ∧ s.vf.mReq.status = mboxStatusGood

/-- The message of a call: of its operation, which is not one `memset` leaves behind, and
without a context if it is to read one. -/
def VfCall.Sent (c : VfCall) : Prop :=
  c.msg.op ≠ .other 0 ∧ (c.op.reads = true → c.msg.qctxt.context = {})

/-- **What ties requests and replies together.** -/
structure MboxInv (s : MboxSys) : Prop where
  replies : ∀ x ∈ s.underway ++ s.inbox, ∀ id, x.1 = some id → (id, x.2) ∈ s.processed
  status : ∀ p ∈ s.processed, p.2.status ≤ 0
  pfStatus : s.pfStatus ≤ 0
  cleared : s.waiting ≠ none → s.vf.mReq = {} ∧ s.gap = []
  sent : (∀ c ∈ s.waiting, c.Sent) ∧ ∀ c ∈ s.gap, c.Sent
  gap : ∀ c ∈ s.gap, GapOk s c
  answered : Answered s

/-- The PF never reports a status above good. -/
theorem pfProcOne_status_le (d : PfDev) {s : ℤ} (m : MboxMsg) (hs : s ≤ 0) :
    (pfProcOne d s m).2.1 ≤ 0 ∧
      ∀ r, (pfProcOne d s m).2.2.1 = some r → r.status ≤ 0 := by
  have hstick : stick PfEntry.Refused PfEntry.Failed PfEntry.code s (d, m, none) ≤ 0 := by
    unfold stick PfEntry.code
    have h1 : einval ≤ 0 := by decide
    have h2 : -mboxStatusEinval ≤ 0 := by decide
    split_ifs <;> omega
  refine ⟨by rw [pfProcOne_status d s m none]; exact hstick, ?_⟩
  intro r hr
  cases hack : m.ack with
  | true => simp [pfProcOne, hack] at hr
  | false =>
      rw [pfProcOne_eq d s m hack] at hr
      simp only at hr
      split_ifs at hr
      · cases hr
        exact hstick

/-- What does not touch replies, calls and `m_req` keeps the invariant. -/
theorem MboxInv.frame {s s' : MboxSys} (h : MboxInv s)
    (hmem : ∀ x ∈ s'.underway ++ s'.inbox,
      x ∈ s.underway ++ s.inbox ∨ x.1 = none)
    (hproc : s'.processed = s.processed) (hpf : s'.pfStatus = s.pfStatus)
    (hreq : s'.vf.mReq = s.vf.mReq) (hwait : s'.waiting = s.waiting) (hgap : s'.gap = s.gap)
    (hres : s'.results = s.results) : MboxInv s' := by
  refine ⟨?_, by rw [hproc]; exact h.status, by rw [hpf]; exact h.pfStatus, ?_, ?_, ?_, ?_⟩
  · intro x hx id hid
    rw [hproc]
    rcases hmem x hx with hx | hx
    · exact h.replies x hx id hid
    · rw [hx] at hid
      cases hid
  · rw [hwait, hreq, hgap]
    exact h.cleared
  · rw [hwait, hgap]
    exact h.sent
  · rw [hgap]
    unfold GapOk
    rw [hreq, hproc]
    exact h.gap
  · unfold Answered
    rw [hres, hproc]
    exact h.answered

/-- A call that fails keeps the law. -/
theorem Answered.fail {s : MboxSys} (h : Answered s) (c : VfCall) {rv : ℤ} (hrv : rv ≠ 0)
    (used : Option VfUsed) : Answered (s.ret c rv used) := by
  intro o ho h0
  rcases List.mem_append.mp ho with ho | ho
  · exact h o ho h0
  · rw [List.mem_singleton.mp ho] at h0
    exact absurd h0 hrv

/-- Returning changes no more than the results. -/
theorem MboxInv.ret {s : MboxSys} (h : MboxInv s) {c : VfCall} {rv : ℤ} {used : Option VfUsed}
    (hans : Answered (s.ret c rv used)) : MboxInv (s.ret c rv used) :=
  ⟨h.replies, h.status, h.pfStatus, h.cleared, h.sent, h.gap, hans⟩

/-! ## The steps -/

theorem request_sent (d : VfDev) (op : VfOp) :
    (op.request d).op ≠ .other 0 ∧ (op.reads = true → (op.request d).qctxt.context = {}) := by
  cases op <;> exact ⟨by simp [VfOp.request], by simp [VfOp.request, VfOp.reads]⟩

/-- **A call** that sends its request finds no other that has yet to read `m_req`. -/
theorem MboxInv.call {s : MboxSys} (h : MboxInv s) (op : VfOp)
    (hok : Matched s (.call op)) : MboxInv (s.call op) := by
  unfold MboxSys.call
  simp only
  split_ifs with h0
  · apply MboxInv.ret
    · exact h.frame (fun _ hx => .inl hx) rfl rfl rfl rfl rfl rfl
    · exact Answered.fail (s := { s with ncall := s.ncall + 1 }) h.answered _ (by decide) none
  · unfold mboxSendReq VfDev.mboxSend
    simp only
    cases hsend : s.vf.sendOk s.vf.sends with
    | false =>
        simp only [Bool.false_eq_true, if_false]
        apply MboxInv.ret
        · exact h.frame (fun _ hx => .inl hx) rfl rfl rfl rfl rfl rfl
        · exact Answered.fail (s := { s with
            ncall := s.ncall + 1, vf := { s.vf with sends := s.vf.sends + 1 } })
            h.answered _ (by decide) none
    | true =>
        have hgap : s.gap = [] := by
          rcases hok with hgap | hcsr | hnone
          · exact hgap
          · exact absurd hcsr h0
          · simp [mboxSendReq, VfDev.mboxSend, hsend] at hnone
        simp only [if_true]
        refine ⟨h.replies, h.status, h.pfStatus, fun _ => ⟨rfl, hgap⟩, ⟨?_, h.sent.2⟩, ?_,
          h.answered⟩
        · intro c hc
          obtain rfl := Option.some.inj hc
          exact request_sent s.vf op
        · show ∀ c ∈ s.gap, _
          rw [hgap]
          exact fun _ hc => absurd hc List.not_mem_nil

/-- What a message does to `m_req`. -/
theorem vfProcOne_mReq (d : VfDev) (s : ℤ) (m : MboxMsg) :
    (vfProcOne d s m).1.mReq = if m.Kept then m else d.mReq := by
  by_cases hack : m.ack = true
  · simp only [vfProcOne, MboxMsg.Kept, hack, if_true, true_and, VfDev.takeAck]
    split_ifs <;> rfl
  · rw [if_neg (fun hk => hack hk.1)]
    unfold vfProcOne
    rw [if_neg hack]
    simp only
    split_ifs <;> rfl

/-- A call that goes on after its wait took nothing, or a message that was kept and
acknowledges its operation. -/
theorem mboxRecvResp_spec {d : VfDev} {m : MboxMsg} (hreq : d.mReq = {}) (hop : m.op ≠ .other 0)
    (r : Option MboxMsg) (hrv : 0 ≤ (mboxRecvResp d m r).2) :
    r = none ∧ (mboxRecvResp d m r).1.mReq = {} ∨
      ∃ x, r = some x ∧ x.Kept ∧ x.op = m.op ∧ 0 ≤ x.status ∧
        (mboxRecvResp d m r).1.mReq = x := by
  cases r with
  | none => exact .inl ⟨rfl, hreq⟩
  | some x =>
      right
      have hkeep := vfProcOne_mReq d mboxStatusGood x
      unfold mboxRecvResp at hrv ⊢
      simp only at hrv ⊢
      split_ifs at hrv ⊢ with hneg
      · exact absurd hrv (not_le.mpr hneg)
      · unfold sendMsgRv at hrv
        simp only at hrv ⊢
        have htime : etime < 0 := by decide
        split_ifs at hrv with hack
        · rw [hkeep, hreq] at hack hrv
          by_cases hk : x.Kept
          · rw [if_pos hk] at hack hrv hkeep
            exact ⟨x, rfl, hk, hack.1, hrv, hkeep⟩
          · rw [if_neg hk] at hack
            exact absurd hack.1.symm hop
        · exact absurd hrv (not_le.mpr htime)

/-- **The end of a wait.** -/
theorem MboxInv.wake {s : MboxSys} (h : MboxInv s) {c : VfCall} (hw : s.waiting = some c)
    (r : Option MboxMsg) (hnone : r = none → c.op.checksAck = true)
    (hmatch : ∀ m, r = some m → m.Kept → m.op = c.msg.op → (c.id, m) ∈ s.processed) :
    MboxInv (s.wake c r) := by
  obtain ⟨hreq, hgap⟩ := h.cleared (by rw [hw]; exact Option.some_ne_none c)
  have hsent := h.sent.1 c hw
  have hspec := mboxRecvResp_spec hreq hsent.1 r
  unfold MboxSys.wake
  generalize mboxRecvResp s.vf c.msg r = p at hspec
  obtain ⟨vf, rv⟩ := p
  simp only at hspec ⊢
  have hnew : ∀ g, (∀ c' ∈ g, c' = c) → (∀ c' ∈ g, GapOk { s with vf := vf } c') →
      MboxInv { s with vf := vf, waiting := none, gap := g } := by
    rintro g hg hok
    refine ⟨h.replies, h.status, h.pfStatus, fun hne => absurd rfl hne, ⟨?_, ?_⟩, hok, h.answered⟩
    · exact fun _ hc => absurd hc (by simp)
    · intro c' hc
      rw [hg c' hc]
      exact hsent
  split_ifs with hrv
  · have hinv := hnew s.gap (by rw [hgap]; simp) (by rw [hgap]; simp)
    apply hinv.ret
    exact hinv.answered.fail c hrv.ne none
  · -- the call goes on, alone
    apply hnew
    · rw [hgap]
      exact fun c' hc => List.mem_singleton.mp hc
    · rw [hgap]
      intro c' hc
      rw [List.mem_singleton.mp hc]
      rcases hspec (not_lt.mp hrv) with ⟨hr, hm⟩ | ⟨x, hr, hk, hop, hst, hm⟩
      · refine .inl ⟨hnone hr, ?_⟩
        show vf.mReq.ack = false
        rw [hm]
      · have hin := hmatch x hr hk hop
        refine .inr ⟨?_, ?_⟩
        · show (c.id, vf.mReq) ∈ s.processed
          rw [hm]
          exact hin
        · show vf.mReq.status = 0
          rw [hm]
          exact le_antisymm (h.status _ hin) hst

/-- What an operation makes of `m_req`. -/
theorem VfOp.use_spec {d : VfDev} {m : MboxMsg} {op : VfOp}
    (hctx : op.reads = true → m.qctxt.context = d.mReq.qctxt.context) :
    (op.use d m).1.mReq = d.mReq ∧
      (op.checksAck = true → d.mReq.ack = false → (op.use d m).2.1 ≠ 0) ∧
      (d.mReq.status = mboxStatusGood → (op.use d m).2.1 = 0 →
        (op.use d m).2.2 = some (op.expected d.mReq)) := by
  have hinval : einval ≠ 0 := by decide
  cases op with
  | setQrange qmax =>
      refine ⟨rfl, ?_, fun _ _ => rfl⟩
      exact fun hc => absurd hc (by simp [VfOp.checksAck])
  | csrMsg type =>
      simp only [VfOp.use]
      refine ⟨by split_ifs <;> rfl, fun hc => absurd hc (by simp [VfOp.checksAck]), fun hst _ => ?_⟩
      have hz : ¬ d.mReq.status ≠ 0 := not_not.mpr hst
      rw [if_neg hz]
      rfl
  | ctxtClear qid st c2h | ctxtSetup qid st c2h context =>
      simp only [VfOp.use]
      cases hack : d.mReq.ack with
      | true => exact ⟨rfl, fun _ hno => absurd hno (by decide), fun hst _ => if_pos hst⟩
      | false => exact ⟨rfl, fun _ _ => hinval, fun _ h0 => absurd h0 hinval⟩
  | ctxtRead qid st c2h =>
      simp only [VfOp.use]
      cases hack : d.mReq.ack with
      | true =>
          refine ⟨by simp only [if_true]; split_ifs <;> rfl, fun _ hno => absurd hno (by decide),
            fun hst _ => ?_⟩
          have hz : ¬ d.mReq.status ≠ 0 := not_not.mpr hst
          rw [if_pos rfl, if_neg hz, hctx rfl]
          rfl
      | false => exact ⟨rfl, fun _ _ => hinval, fun _ h0 => absurd h0 hinval⟩

/-- **A call goes on**: it uses its reply. -/
theorem MboxInv.use {s : MboxSys} (h : MboxInv s) (i : ℕ) (hi : i < s.gap.length)
    (hok : Matched s (.use i)) : MboxInv (s.step (.use i)) := by
  have hc := List.getElem?_eq_getElem hi
  have hmem : s.gap.get ⟨i, hi⟩ ∈ s.gap := List.getElem_mem hi
  rw [List.get_eq_getElem] at hmem
  generalize s.gap[i] = c at hc hmem
  have hok : c.op.reads = true → s.vf.mReq.qctxt.context = {} := hok c hc
  simp only [MboxSys.step, hc]
  have hsent := h.sent.2 c hmem
  have hspec := @VfOp.use_spec s.vf c.msg c.op (fun hr => by rw [hsent.2 hr, hok hr])
  rcases hu : c.op.use s.vf c.msg with ⟨vf, rv, used⟩
  rw [hu] at hspec
  simp only at hspec ⊢
  obtain ⟨hreq, hnoack, hgood⟩ := hspec
  have hsub : ∀ c' ∈ s.gap.eraseIdx i, c' ∈ s.gap := fun _ => List.mem_of_mem_eraseIdx
  have hinv : MboxInv { s with vf := vf, gap := s.gap.eraseIdx i } := by
    refine ⟨h.replies, h.status, h.pfStatus, ?_, ⟨h.sent.1, ?_⟩, ?_, h.answered⟩
    · intro hne
      obtain ⟨hm, hg⟩ := h.cleared hne
      exact absurd hmem (by rw [hg]; exact List.not_mem_nil)
    · exact fun c' hc' => h.sent.2 c' (hsub c' hc')
    · intro c' hc'
      unfold GapOk
      simp only
      rw [hreq]
      exact h.gap c' (hsub c' hc')
  apply hinv.ret
  rcases h.gap c hmem with ⟨hack, hno⟩ | ⟨hin, hst⟩
  · exact hinv.answered.fail c (hnoack hack hno) used
  · intro o ho h0
    rcases List.mem_append.mp ho with ho | ho
    · exact h.answered o ho h0
    · rw [List.mem_singleton.mp ho] at h0 ⊢
      exact ⟨s.vf.mReq, hin, hst, hgood hst h0⟩

/-- **The PF answers a message.** -/
theorem MboxInv.pfStep {s : MboxSys} (h : MboxInv s) (first : Bool) (x : Tagged) :
    MboxInv (s.pfStep first x) := by
  have hle : (if first then mboxStatusGood else s.pfStatus) ≤ 0 := by
    cases first
    · exact h.pfStatus
    · exact le_refl _
  unfold MboxSys.pfStep
  rcases hp : pfProcOne s.pf (if first then mboxStatusGood else s.pfStatus) x.2 with
    ⟨pf, status, resp, more⟩
  obtain ⟨hstatus, hresp⟩ := pfProcOne_status_le s.pf x.2 hle
  rw [hp] at hstatus hresp
  -- without a response the PF has only changed its own state
  have hquiet : MboxInv { s with pf := pf, pfStatus := status } :=
    ⟨h.replies, h.status, hstatus, h.cleared, h.sent, h.gap, h.answered⟩
  rcases x with ⟨tag, m⟩
  cases tag with
  | none => exact hquiet
  | some id =>
      cases resp with
      | none => exact hquiet
      | some r =>
          have hsub : ∀ p ∈ s.processed, p ∈ s.processed ++ [(id, r)] :=
            fun _ => List.mem_append_left _
          refine ⟨?_, ?_, hstatus, h.cleared, h.sent, ?_, ?_⟩
          · intro y hy id' hid
            simp only [List.mem_append, List.mem_singleton] at hy ⊢
            rcases hy with (hy | rfl) | hy
            · exact .inl (h.replies y (List.mem_append_left _ hy) id' hid)
            · cases hid
              exact .inr rfl
            · exact .inl (h.replies y (List.mem_append_right _ hy) id' hid)
          · intro p hp
            rcases List.mem_append.mp hp with hp | hp
            · exact h.status p hp
            · rw [List.mem_singleton.mp hp]
              exact hresp r rfl
          · intro c hc
            rcases h.gap c hc with hno | ⟨hin, hst⟩
            · exact .inl hno
            · exact .inr ⟨hsub _ hin, hst⟩
          · intro o ho h0
            obtain ⟨r', hin, hst⟩ := h.answered o ho h0
            exact ⟨r', hsub _ hin, hst⟩

/-- Messages that are not kept leave `m_req` alone. -/
theorem vfProcLoop_mReq (ms : List MboxMsg) (d : VfDev) (s : ℤ) (hms : ∀ m ∈ ms, ¬ m.Kept) :
    (vfProcLoop ms d s).1.mReq = d.mReq := by
  induction ms generalizing d s with
  | nil => rfl
  | cons m ms ih =>
      have hm := vfProcOne_mReq d s m
      rw [if_neg (hms m List.mem_cons_self)] at hm
      unfold vfProcLoop
      rcases hp : vfProcOne d s m with ⟨d', status, resp, rv, more⟩
      rw [hp] at hm
      cases more with
      | true =>
          simp only [if_true]
          rw [ih d' status (fun m' hm' => hms m' (List.mem_cons_of_mem _ hm'))]
          exact hm
      | false => exact hm

/-- **The timer** keeps no message while a call has yet to read `m_req`. -/
theorem MboxInv.timer {s : MboxSys} (h : MboxInv s) (hfree : s.waiting = none)
    (hok : Matched s .timer) : MboxInv (s.step .timer) := by
  have hloop := vfProcLoop_mReq (s.inbox.map Prod.snd) s.vf mboxStatusGood
  simp only [MboxSys.step, vfMboxProc]
  rcases hp : vfProcLoop (s.inbox.map Prod.snd) s.vf mboxStatusGood with ⟨vf, log⟩
  rw [hp] at hloop
  refine ⟨?_, h.status, h.pfStatus, fun hne => absurd hfree hne, h.sent, ?_, h.answered⟩
  · intro x hx
    apply h.replies
    rcases List.mem_append.mp hx with hx | hx
    · exact List.mem_append_left _ hx
    · exact List.mem_append_right _ (List.mem_of_mem_drop hx)
  · rcases hok with hgap | hms
    · show ∀ c ∈ s.gap, _
      rw [hgap]
      exact fun _ hc => absurd hc List.not_mem_nil
    · have hreq : vf.mReq = s.vf.mReq := by
        apply hloop
        intro m hm
        obtain ⟨x, hx, rfl⟩ := List.mem_map.mp hm
        exact hms x hx
      unfold GapOk
      simp only
      rw [hreq]
      exact h.gap

/-- **Every step keeps the invariant.** -/
theorem mboxInv_step {s : MboxSys} (h : MboxInv s) (l : MboxLabel) (hl : MboxLegal s l)
    (hok : Matched s l) : MboxInv (s.step l) := by
  cases l with
  | call op => exact h.call op hok
  | recv =>
      obtain ⟨hw, hin⟩ := hl
      obtain ⟨c, hc⟩ := Option.ne_none_iff_exists'.mp hw
      obtain ⟨x, rest, hx⟩ := List.exists_cons_of_ne_nil hin
      have hmatch := hok c hc x (by rw [hx]; rfl)
      have hrep := h.replies x (by rw [hx]; simp)
      have hstep : s.step .recv = MboxSys.wake { s with inbox := rest } c (some x.2) := by
        simp only [MboxSys.step, hc, hx]
      rw [hstep]
      apply MboxInv.wake (s := { s with inbox := rest }) _ hc
      · exact fun hno => absurd hno (by simp)
      · intro m hm hk hop
        cases hm
        exact hrep c.id (hmatch hk hop)
      · refine h.frame ?_ rfl rfl rfl rfl rfl rfl
        intro y hy
        rw [hx]
        rcases List.mem_append.mp hy with hy | hy
        · exact .inl (List.mem_append_left _ hy)
        · exact .inl (List.mem_append_right _ (List.mem_cons_of_mem _ hy))
  | timeout =>
      obtain ⟨c, hc⟩ := Option.ne_none_iff_exists'.mp hl.1
      have hstep : s.step .timeout = s.wake c none := by simp only [MboxSys.step, hc]
      rw [hstep]
      apply h.wake hc
      · exact fun _ => hok c hc
      · exact fun m hm => absurd hm (by simp)
  | timer => exact h.timer hl hok
  | use i => exact h.use i hl hok
  | pf first =>
      obtain ⟨x, rest, hx⟩ := List.exists_cons_of_ne_nil hl
      have hstep : s.step (.pf first) = MboxSys.pfStep { s with pfInbox := rest } first x := by
        simp only [MboxSys.step, hx]
      rw [hstep]
      apply MboxInv.pfStep
      exact h.frame (fun _ hy => .inl hy) rfl rfl rfl rfl rfl rfl
  | deliver i =>
      have hi : i < s.underway.length := hl
      simp only [MboxSys.step, List.getElem?_eq_getElem hi]
      refine h.frame ?_ rfl rfl rfl rfl rfl rfl
      intro y hy
      simp only [List.mem_append, List.mem_singleton] at hy ⊢
      rcases hy with hy | hy | rfl
      · exact .inl (.inl (List.mem_of_mem_eraseIdx hy))
      · exact .inl (.inr hy)
      · exact .inl (.inl (List.getElem_mem hi))
  | toPf m => exact h.frame (fun _ hy => .inl hy) rfl rfl rfl rfl rfl rfl
  | toVf m =>
      refine h.frame ?_ rfl rfl rfl rfl rfl rfl
      intro y hy
      simp only [MboxSys.step, List.mem_append, List.mem_singleton] at hy ⊢
      rcases hy with (hy | rfl) | hy
      · exact .inl (.inl hy)
      · exact .inr rfl
      · exact .inl (.inr hy)

/-! ## The law -/

/-- **Request and response**: while replies match, a call that succeeds was answered by the PF
with good status and uses what that answer says. -/
theorem mbox_request_response {vfId : ℕ} {vf : VfDev} {pf : PfDev} {evs : List MboxLabel}
    {s : MboxSys}
    (h : Run MboxSys.step (fun s l => MboxLegal s l ∧ Matched s l)
      { vfId := vfId, vf := vf, pf := pf } evs s) : Answered s := by
  have hinv : MboxInv s := by
    apply h.invariant
    · constructor <;> simp [Answered, mboxStatusGood]
    · exact fun s l hs hok => mboxInv_step hs l hok.1 hok.2
  exact hinv.answered

/-- A VF asks for eight queues, the PF gives them, and the VF uses its reply. -/
def qrangeCall : List MboxLabel := [.call (.setQrange 8), .pf true, .deliver 0, .recv, .use 0]

/-- Function 4 of a PF with 2048 queues. -/
def vfFour : MboxSys := { vfId := 4, vf := {}, pf := { qsetsMax := 2048, vfInfo := [⟨4, 0, 0⟩] } }

theorem mbox_request_response_qrange :
    (qrangeCall.foldl MboxSys.step vfFour).results.map (fun o => (o.id, o.rv)) = [(0, 0)] ∧
      Answered (qrangeCall.foldl MboxSys.step vfFour) :=
  ⟨by decide +kernel,
    mbox_request_response
      (Run.under (fun s l => MboxLegal s l ∧ Matched s l) qrangeCall
        (by decide +kernel))⟩

/-- A call that waits a second for nothing succeeds: the PF has not seen it. -/
theorem timeout_succeeds :
    ∃ evs s, Run MboxSys.step MboxLegal vfFour evs s ∧ ¬ Answered s := by
  refine ⟨[.call (.setQrange 8), .timeout, .use 0], _, Run.of_admits _ (by decide +kernel), ?_⟩
  intro h
  obtain ⟨r, hr, -⟩ := h ⟨0, .setQrange 8, 0, some (.qrange 0 0 0)⟩ (by decide +kernel) rfl
  have hnone : ([MboxLabel.call (.setQrange 8), .timeout, .use 0].foldl
      MboxSys.step vfFour).processed = [] := by decide +kernel
  rw [hnone] at hr
  exact absurd hr List.not_mem_nil

end Qdma
