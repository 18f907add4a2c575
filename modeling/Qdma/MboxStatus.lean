/-
# One message's status in another's answer

Both mailbox handlers keep `status` in a variable that is set to good before the loop over
the waiting messages and not inside it.  A message that is refused, or whose context
commands fail, leaves its status behind for the messages after it.

`mbox_answers_iff` says exactly in which batches every message still gets the answer it
would get alone; `refusal_spills` is a batch in which one does not.
-/
import Qdma.CtxtFrame
import Qdma.MboxVf

namespace Qdma

/-! ## A status that sticks -/

section Sticky

variable {ε : Type*} (refused failed asks : ε → Prop) [DecidablePred refused]
  [DecidablePred failed] (code : ε → ℤ)

/-- The status after an entry: a refusal sets it, a failure sets it if it was good. -/
def stick (s : ℤ) (e : ε) : ℤ :=
  if refused e then code e else if failed e ∧ s = 0 then -1 else s

/-- The entry is answered as if the status had been good. -/
def Untouched (s : ℤ) (e : ε) : Prop := asks e → s = 0 ∨ failed e ∧ s = -1

/-- Every entry of the list is answered so, the status sticking. -/
def AllUntouched : ℤ → List ε → Prop
  | _, [] => True
  | s, e :: es => Untouched failed asks s e ∧ AllUntouched (stick refused failed code s e) es

/-- `x` leaves no status behind that `y` would show. -/
def Spares (x y : ε) : Prop := asks y → ¬ refused x ∧ (failed x → failed y)

variable {refused failed asks code}

/-- The induction behind `allUntouched_iff`: `r` and `f` say whether something was refused
or has failed before. -/
theorem allUntouched_aux (hcode : ∀ e, refused e → code e ≠ 0 ∧ code e ≠ -1) (es : List ε)
    {s : ℤ} {r f : Prop}
    (hs : (¬ r ∧ ¬ f ∧ s = 0) ∨ (¬ r ∧ f ∧ s = -1) ∨ (r ∧ s ≠ 0 ∧ s ≠ -1)) :
    AllUntouched refused failed asks code s es ↔
      (∀ y ∈ es, asks y → ¬ r ∧ (f → failed y)) ∧ es.Pairwise (Spares refused failed asks) := by
  -- `r` and `f` say what the status is from the events before: 0, -1 or a code
  induction es generalizing s r f with
  | nil => simp [AllUntouched]
  | cons e es ih =>
      -- the three cases are kept by an event
      have hnext : (¬ (r ∨ refused e) ∧ ¬ (f ∨ failed e) ∧ stick refused failed code s e = 0) ∨
          (¬ (r ∨ refused e) ∧ (f ∨ failed e) ∧ stick refused failed code s e = -1) ∨
          ((r ∨ refused e) ∧ stick refused failed code s e ≠ 0 ∧
            stick refused failed code s e ≠ -1) := by
        unfold stick
        by_cases hr : refused e
        · rw [if_pos hr]
          exact .inr (.inr ⟨.inr hr, hcode e hr⟩)
        · rw [if_neg hr]
          by_cases hf : failed e
          · rcases hs with ⟨h1, h2, h3⟩ | ⟨h1, h2, h3⟩ | ⟨h1, h2, h3⟩
            · simp [h1, hr, hf, h3]
            · simp [h1, hr, hf, h3]
            · simp [h1, hf, h2, h3]
          · rcases hs with ⟨h1, h2, h3⟩ | ⟨h1, h2, h3⟩ | ⟨h1, h2, h3⟩
            · simp [h1, h2, hr, hf, h3]
            · simp [h1, h2, hr, hf, h3]
            · simp [h1, hf, h2, h3]
      have hhead : Untouched failed asks s e ↔ (asks e → ¬ r ∧ (f → failed e)) := by
        unfold Untouched
        rcases hs with ⟨h1, h2, h3⟩ | ⟨h1, h2, h3⟩ | ⟨h1, h2, h3⟩
        · simp [h1, h2, h3]
        · simp [h1, h2, h3]
        · simp [h1, h2, h3]
      rw [AllUntouched, ih hnext, hhead, List.forall_mem_cons, List.pairwise_cons]
      constructor
      · rintro ⟨he, hrest, hpair⟩
        refine ⟨⟨he, fun y hy hasks => ?_⟩, fun y hy hasks => ?_, hpair⟩
        · obtain ⟨h1, h2⟩ := hrest y hy hasks
          exact ⟨fun h => h1 (.inl h), fun h => h2 (.inl h)⟩
        · obtain ⟨h1, h2⟩ := hrest y hy hasks
          exact ⟨fun h => h1 (.inr h), fun h => h2 (.inr h)⟩
      · rintro ⟨⟨he, hrest⟩, hclean, hpair⟩
        refine ⟨he, fun y hy hasks => ?_, hpair⟩
        obtain ⟨h1, h2⟩ := hrest y hy hasks
        obtain ⟨h3, h4⟩ := hclean y hy hasks
        exact ⟨fun h => h.elim h1 h3, fun h => h.elim h2 h4⟩

/-- **A status that sticks does no harm** exactly if no entry leaves one behind that a later
one shows. -/
theorem allUntouched_iff (hcode : ∀ e, refused e → code e ≠ 0 ∧ code e ≠ -1) (es : List ε) :
    AllUntouched refused failed asks code 0 es ↔
      es.Pairwise (Spares refused failed asks) := by
  rw [allUntouched_aux hcode es (r := False) (f := False) (.inl ⟨id, id, rfl⟩)]
  simp

end Sticky

/-! ## The PF -/

/-- Messages the PF's handler refuses: of an operation it does not know, or for a CSR table
that does not exist. -/
def MboxMsg.pfRefuses (m : MboxMsg) : Bool :=
  match m.op with
  | .csr => m.csr.type = 0 ∨ 4 < m.csr.type
  | .reset => true
  | .other _ => true
  | _ => false

/-- A message the handler took: the device as it met it, the message, and the answer. -/
abbrev PfEntry := PfDev × MboxMsg × Option MboxMsg

/-- The message is a request that is refused. -/
def PfEntry.Refused (e : PfEntry) : Prop := e.2.1.ack = false ∧ e.2.1.pfRefuses = true

/-- The message waits for an answer and what it asks for fails on the device as it is. -/
def PfEntry.Failed (e : PfEntry) : Prop :=
  e.2.1.ack = false ∧ e.2.1.wait = true ∧ (pfProcOp e.1 e.2.1).2.2.1 < 0

/-- The message waits, is not refused, and the outgoing mailbox is free for the answer. -/
def PfEntry.Asks (e : PfEntry) : Prop :=
  e.2.1.ack = false ∧ e.2.1.wait = true ∧ e.2.1.pfRefuses = false ∧
    e.1.sendOk e.1.sends = true

instance : DecidablePred PfEntry.Refused := fun _ => inferInstanceAs (Decidable (_ ∧ _))

instance : DecidablePred PfEntry.Failed := fun _ => inferInstanceAs (Decidable (_ ∧ _ ∧ _))

/-- The status of a refusal. -/
def PfEntry.code (e : PfEntry) : ℤ :=
  if e.2.1.op = .csr then einval else -mboxStatusEinval

theorem PfEntry.code_ne (e : PfEntry) : e.code ≠ 0 ∧ e.code ≠ -1 := by
  unfold PfEntry.code
  split_ifs <;> decide

/-- `status` is assigned exactly if the message is refused. -/
theorem pfProcOp_set (d : PfDev) (m : MboxMsg) (r : Option MboxMsg) :
    (pfProcOp d m).2.2.2
      = if m.pfRefuses then some (PfEntry.code (d, m, r)) else none := by
  unfold pfProcOp MboxMsg.pfRefuses PfEntry.code
  cases hop : m.op with
  | csr =>
      -- the tables are numbered 1 to 4
      rcases htype : m.csr.type with _ | _ | _ | _ | _ | n <;> simp [PfDev.csrTable]
  | _ => simp

/-- What an operation leaves of the device's mailbox: everything. -/
def SameSends (d d' : PfDev) : Prop :=
  d'.sends = d.sends ∧ d'.sendOk = d.sendOk ∧ d'.funcId = d.funcId

theorem SameSends.refl (d : PfDev) : SameSends d d := ⟨rfl, rfl, rfl⟩

theorem CtxtOnly.sameSends {d d' : PfDev} (h : CtxtOnly d d') : SameSends d d' := by
  obtain ⟨c, k, rfl⟩ := h
  exact ⟨rfl, rfl, rfl⟩

theorem sameSends_pfProcOp (d : PfDev) (m : MboxMsg) : SameSends d (pfProcOp d m).1 := by
  unfold pfProcOp
  cases m.op with
  | csr =>
      simp only
      split <;> exact SameSends.refl d
  | qctxtClr => exact (contextClear_only _ _ _ _ _).sameSends
  | qctxtRd => exact (ctextReads_only _ _ _ _).sameSends
  | qctxtWrt => exact (pfQctxtWrt_only _ _).sameSends
  | _ => exact ⟨rfl, rfl, rfl⟩

/-- An operation leaves the flag `wait` of its message alone. -/
theorem pfProcOp_wait (d : PfDev) (m : MboxMsg) : (pfProcOp d m).2.1.wait = m.wait := by
  unfold pfProcOp
  cases m.op with
  | csr =>
      simp only
      split <;> rfl
  | _ => rfl

/-- What the loop does with a message, in terms of the operation and of the status after it. -/
theorem pfProcOne_eq (d : PfDev) (s : ℤ) (m : MboxMsg) (hack : m.ack = false) :
    pfProcOne d s m =
      let r := pfProcOp d m
      let s' := stick PfEntry.Refused PfEntry.Failed PfEntry.code s (d, m, none)
      if m.wait && !r.1.mboxSend.2 then (r.1.mboxSend.1, s', none, false)
      else
        let d' := if m.wait then r.1.mboxSend.1 else r.1
        (d'.checkOffline.1, s', if m.wait then some (r.2.1.respond r.1.funcId s') else none,
          !d'.checkOffline.2) := by
  have hset := pfProcOp_set d m none
  have hwait := pfProcOp_wait d m
  have hstatus : (if m.wait then statusOf (pfProcOp d m).2.2.1 ((pfProcOp d m).2.2.2.getD s)
      else (pfProcOp d m).2.2.2.getD s)
      = stick PfEntry.Refused PfEntry.Failed PfEntry.code s (d, m, none) := by
    unfold stick PfEntry.Refused PfEntry.Failed statusOf
    simp only [hset, hack, true_and]
    have hcode := PfEntry.code_ne (d, m, none)
    cases m.pfRefuses <;> cases m.wait <;> simp [hcode.1, mboxStatusErr]
  unfold pfProcOne
  simp only [hack, Bool.false_eq_true, if_false, hwait]
  cases hw : m.wait with
  | false =>
      rw [hw] at hstatus
      simp only [Bool.false_eq_true, if_false, Bool.false_and] at hstatus ⊢
      rw [hstatus]
  | true =>
      rw [hw] at hstatus
      simp only [if_true, Bool.true_and] at hstatus ⊢
      rw [hstatus]

/-- The part of what the loop does that the status has no say in. -/
theorem pfProcOne_same (d : PfDev) (s t : ℤ) (m : MboxMsg) :
    (pfProcOne d s m).1 = (pfProcOne d t m).1 ∧
      (pfProcOne d s m).2.2.2 = (pfProcOne d t m).2.2.2 := by
  cases hack : m.ack with
  | true => simp [pfProcOne, hack]
  | false =>
      rw [pfProcOne_eq d s m hack, pfProcOne_eq d t m hack]
      simp only
      split_ifs <;> exact ⟨rfl, rfl⟩

/-- The status the loop goes on with. -/
theorem pfProcOne_status (d : PfDev) (s : ℤ) (m : MboxMsg) (r : Option MboxMsg) :
    (pfProcOne d s m).2.1 = stick PfEntry.Refused PfEntry.Failed PfEntry.code s (d, m, r) := by
  cases hack : m.ack with
  | true => simp [pfProcOne, stick, PfEntry.Refused, PfEntry.Failed, hack]
  | false =>
      rw [pfProcOne_eq d s m hack]
      simp only
      split_ifs <;> rfl

/-- **The answer is the one given alone** exactly if the status does not show in it. -/
theorem pfProcOne_answer (d : PfDev) (s : ℤ) (m : MboxMsg) (r : Option MboxMsg) :
    (pfProcOne d s m).2.2.1 = (pfProcOne d mboxStatusGood m).2.2.1 ↔
      Untouched PfEntry.Failed PfEntry.Asks s (d, m, r) := by
  unfold Untouched PfEntry.Asks
  cases hack : m.ack with
  | true => simp [pfProcOne, hack]
  | false =>
      obtain ⟨hsends, hok, _⟩ := sameSends_pfProcOp d m
      have hsend : (pfProcOp d m).1.mboxSend.2 = d.sendOk d.sends := by
        unfold PfDev.mboxSend
        rw [hsends, hok]
      rw [pfProcOne_eq d s m hack, pfProcOne_eq d mboxStatusGood m hack]
      simp only [hsend]
      cases hw : m.wait with
      | false => simp
      | true =>
          cases hbusy : d.sendOk d.sends with
          | false => simp
          | true =>
              simp only [Bool.not_true, Bool.and_false, Bool.false_eq_true, if_false, if_true,
                Option.some.injEq, true_and, and_true]
              have hinj : ∀ a b : ℤ, (pfProcOp d m).2.1.respond (pfProcOp d m).1.funcId a
                  = (pfProcOp d m).2.1.respond (pfProcOp d m).1.funcId b ↔ a = b := by
                intro a b
                exact ⟨fun h => congrArg MboxMsg.status h, fun h => by rw [h]⟩
              rw [hinj]
              unfold stick PfEntry.Refused PfEntry.Failed mboxStatusGood
              simp only [hack, hw, true_and]
              cases m.pfRefuses with
              | true => simp
              | false =>
                  simp only [Bool.false_eq_true, if_false]
                  by_cases hf : (pfProcOp d m).2.2.1 < 0
                  · by_cases hs : s = 0
                    · simp [hf, hs]
                    · simp [hf, hs]
                  · simp [hf]

/-- Alone, a message gets the answer of a good status. -/
theorem pfMboxProc_single (m : MboxMsg) (d : PfDev) :
    (pfMboxProc [m] d).2 = [(d, m, (pfProcOne d mboxStatusGood m).2.2.1)] := by
  unfold pfMboxProc
  rw [pfProcLoop]
  simp only [pfProcLoop]
  split_ifs <;> rfl

/-- The answers of a loop are those given alone exactly if no status shows. -/
theorem pfProcLoop_alone (ms : List MboxMsg) (d : PfDev) (s : ℤ) :
    (∀ e ∈ (pfProcLoop ms d s).2, (pfMboxProc [e.2.1] e.1).2 = [e]) ↔
      AllUntouched PfEntry.Refused PfEntry.Failed PfEntry.Asks PfEntry.code s
        (pfProcLoop ms d s).2 := by
  induction ms generalizing d s with
  | nil => simp [pfProcLoop, AllUntouched]
  | cons m ms ih =>
      have hhead : (pfMboxProc [m] d).2 = [(d, m, (pfProcOne d s m).2.2.1)] ↔
          Untouched PfEntry.Failed PfEntry.Asks s (d, m, (pfProcOne d s m).2.2.1) := by
        rw [pfMboxProc_single, ← pfProcOne_answer]
        simp [eq_comm]
      rw [pfProcLoop]
      simp only
      split_ifs with hmore
      · rw [List.forall_mem_cons, AllUntouched, ← pfProcOne_status d s m, ← ih]
        exact and_congr_left' hhead
      · rw [List.forall_mem_singleton, AllUntouched, AllUntouched, and_true]
        exact hhead

/-! ## The VF -/

/-- A message the VF's handler took. -/
abbrev VfEntry := VfDev × MboxMsg × Option MboxMsg

/-- A VF refuses every request but a reset. -/
def VfEntry.Refused (e : VfEntry) : Prop := e.2.1.ack = false ∧ e.2.1.op ≠ .reset

/-- The message is a reset that waits, and the outgoing mailbox is free for the answer. -/
def VfEntry.Asks (e : VfEntry) : Prop :=
  e.2.1.ack = false ∧ e.2.1.wait = true ∧ e.2.1.op = .reset ∧ e.1.sendOk e.1.sends = true

/-- Nothing fails on a VF without being refused. -/
def VfEntry.Failed (_ : VfEntry) : Prop := False

instance : DecidablePred VfEntry.Refused := fun _ => inferInstanceAs (Decidable (_ ∧ _))

instance : DecidablePred VfEntry.Failed := fun _ => inferInstanceAs (Decidable False)

/-- The status of a refusal. -/
def VfEntry.code (_ : VfEntry) : ℤ := -mboxStatusEinval

theorem vfProcOp_getD (m : MboxMsg) (s : ℤ) (d : VfDev) (r : Option MboxMsg)
    (hack : m.ack = false) :
    (vfProcOp m).getD s = stick VfEntry.Refused VfEntry.Failed VfEntry.code s (d, m, r) := by
  unfold vfProcOp stick VfEntry.Refused VfEntry.Failed VfEntry.code
  simp only [hack, true_and, false_and, if_false]
  cases m.op <;> simp

/-- The status the loop goes on with. -/
theorem vfProcOne_status (d : VfDev) (s : ℤ) (m : MboxMsg) (r : Option MboxMsg) :
    (vfProcOne d s m).2.1 = stick VfEntry.Refused VfEntry.Failed VfEntry.code s (d, m, r) := by
  unfold vfProcOne
  cases hack : m.ack with
  | true => simp [stick, VfEntry.Refused, VfEntry.Failed, hack]
  | false =>
      rw [← vfProcOp_getD m s d r hack]
      simp only [Bool.false_eq_true, if_false]
      split_ifs <;> rfl

/-- **The answer is the one given alone** exactly if the status does not show in it. -/
theorem vfProcOne_answer (d : VfDev) (s : ℤ) (m : MboxMsg) (r : Option MboxMsg) :
    (vfProcOne d s m).2.2.1 = (vfProcOne d mboxStatusGood m).2.2.1 ↔
      Untouched VfEntry.Failed VfEntry.Asks s (d, m, r) := by
  unfold Untouched VfEntry.Asks VfEntry.Failed vfProcOne
  cases hack : m.ack with
  | true => simp
  | false =>
      simp only [Bool.false_eq_true, if_false]
      cases hw : m.wait with
      | false => simp
      | true =>
          cases hbusy : d.sendOk d.sends with
          | false => simp [VfDev.mboxSend, hbusy]
          | true =>
              have hinj : ∀ a b : ℤ, m.respond d.funcId a = m.respond d.funcId b ↔ a = b := by
                intro a b
                exact ⟨fun h => congrArg MboxMsg.status h, fun h => by rw [h]⟩
              simp only [VfDev.mboxSend, hbusy, Bool.not_true, Bool.false_eq_true, if_false,
                if_true, Option.some.injEq, hinj, true_and, and_true, false_and, or_false]
              unfold vfProcOp mboxStatusGood
              cases hop : m.op <;> simp

theorem vfMboxProc_single (m : MboxMsg) (d : VfDev) :
    (vfMboxProc [m] d).2 = [(d, m, (vfProcOne d mboxStatusGood m).2.2.1)] := by
  unfold vfMboxProc
  rw [vfProcLoop]
  simp only [vfProcLoop]
  split_ifs <;> rfl

/-- The answers of a loop are those given alone exactly if no status shows. -/
theorem vfProcLoop_alone (ms : List MboxMsg) (d : VfDev) (s : ℤ) :
    (∀ e ∈ (vfProcLoop ms d s).2, (vfMboxProc [e.2.1] e.1).2 = [e]) ↔
      AllUntouched VfEntry.Refused VfEntry.Failed VfEntry.Asks VfEntry.code s
        (vfProcLoop ms d s).2 := by
  induction ms generalizing d s with
  | nil => simp [vfProcLoop, AllUntouched]
  | cons m ms ih =>
      have hhead : (vfMboxProc [m] d).2 = [(d, m, (vfProcOne d s m).2.2.1)] ↔
          Untouched VfEntry.Failed VfEntry.Asks s (d, m, (vfProcOne d s m).2.2.1) := by
        rw [vfMboxProc_single, ← vfProcOne_answer]
        simp [eq_comm]
      rw [vfProcLoop]
      simp only
      split_ifs with hmore
      · rw [List.forall_mem_cons, AllUntouched, ← vfProcOne_status d s m, ← ih]
        exact and_congr_left' hhead
      · rw [List.forall_mem_singleton, AllUntouched, AllUntouched, and_true]
        exact hhead

/-! ## Batches -/

/-- **When a batch is answered message by message.**  Every message a PF takes in one call of
its handler gets the answer it would get alone, from the device as it met it, exactly if no
message is followed by one that waits for the status of its own: none refused before one
that is not, none that failed before one that does not.  On a VF none refused before one that
is not. -/
theorem mbox_answers_iff (ms : List MboxMsg) :
    (∀ d, (∀ e ∈ (pfMboxProc ms d).2, (pfMboxProc [e.2.1] e.1).2 = [e]) ↔
      (pfMboxProc ms d).2.Pairwise (Spares PfEntry.Refused PfEntry.Failed PfEntry.Asks)) ∧
    (∀ d, (∀ e ∈ (vfMboxProc ms d).2, (vfMboxProc [e.2.1] e.1).2 = [e]) ↔
      (vfMboxProc ms d).2.Pairwise (Spares VfEntry.Refused VfEntry.Failed VfEntry.Asks)) := by
  constructor
  · intro d
    rw [← allUntouched_iff (fun e _ => e.code_ne)]
    exact pfProcLoop_alone ms d mboxStatusGood
  · intro d
    have hcode : ∀ e, VfEntry.Refused e → VfEntry.code e ≠ 0 ∧ VfEntry.code e ≠ -1 := by
      intro e _
      unfold VfEntry.code
      decide
    rw [← allUntouched_iff hcode]
    exact vfProcLoop_alone ms d mboxStatusGood

/-- **A refusal spills over.**  VF 5 sends an operation that does not exist and VF 4, in the
same batch, asks for its queues: VF 4 is told that its request is invalid. -/
theorem refusal_spills :
    ¬ ∀ (ms : List MboxMsg) (d : PfDev),
      ∀ e ∈ (pfMboxProc ms d).2, (pfMboxProc [e.2.1] e.1).2 = [e] := by
  intro h
  -- compare the answers' status only
  have hall : ∀ (ms : List MboxMsg) (d : PfDev),
      (pfMboxProc ms d).2.map (fun e => (pfMboxProc [e.2.1] e.1).2.map (·.2.2.map MboxMsg.status))
        = (pfMboxProc ms d).2.map (fun e => [e.2.2.map MboxMsg.status]) := by
    intro ms d
    apply List.map_congr_left
    intro e he
    rw [h ms d e he]
    rfl
  exact absurd (hall [{ op := .other 12, src := 5, wait := true },
    { op := .fmap, src := 4, wait := true, fmap := { qmax := 8 } }] {}) (by decide)

end Qdma
