/-
# What the context commands touch

An indirect command reaches one context of one queue: the other contexts and the other queues
keep their words, and the device its other registers, whatever it answers.
-/
import Qdma.Mbox

namespace Qdma

/-! ## The rest of the device -/

/-- Contexts differ, and the number of commands given; nothing else does. -/
def CtxtOnly (d d' : PfDev) : Prop := ∃ c k, d' = { d with ctxt := c, cmds := k }

theorem CtxtOnly.refl (d : PfDev) : CtxtOnly d d := ⟨d.ctxt, d.cmds, rfl⟩

theorem CtxtOnly.trans {a b c : PfDev} (h : CtxtOnly a b) (h' : CtxtOnly b c) : CtxtOnly a c := by
  obtain ⟨c1, k1, rfl⟩ := h
  obtain ⟨c2, k2, rfl⟩ := h'
  exact ⟨c2, k2, rfl⟩

theorem hwIndirectCtextProg_only (d : PfDev) (qid : ℕ) (cmd : CtxtCmd) (sel : CtxtSel)
    (verify : Bool) : CtxtOnly d (hwIndirectCtextProg d qid cmd sel verify).1 := by
  unfold hwIndirectCtextProg
  simp only
  split <;> exact ⟨_, _, rfl⟩

theorem ctextProgs_only (qid : ℕ) (cmds : List (CtxtCmd × CtxtSel × Bool)) (d : PfDev) :
    CtxtOnly d (ctextProgs qid cmds d).1 := by
  induction cmds generalizing d with
  | nil => exact CtxtOnly.refl d
  | cons c cmds ih =>
      obtain ⟨cmd, sel, verify⟩ := c
      have hone := hwIndirectCtextProg_only d qid cmd sel verify
      rw [ctextProgs]
      simp only
      split_ifs
      · exact hone
      · exact hone.trans (ih _)

theorem ctextReads_only (qid : ℕ)
    (reads : List (CtxtSel × (HwDescqContext → PfDev → HwDescqContext))) (c : HwDescqContext)
    (d : PfDev) : CtxtOnly d (ctextReads qid reads c d).1 := by
  induction reads generalizing c d with
  | nil => exact CtxtOnly.refl d
  | cons r reads ih =>
      obtain ⟨sel, store⟩ := r
      have hone := hwIndirectCtextProg_only d qid .rd sel false
      rw [ctextReads]
      simp only
      split_ifs
      · exact hone
      · exact hone.trans (ih _ _)

theorem contextClear_only (d : PfDev) (qid : ℕ) (st c2h clr : Bool) :
    CtxtOnly d (qdmaDescqContextClearHw d qid st c2h clr).1 := ctextProgs_only _ _ _

theorem contextProgram_only (d : PfDev) (qid : ℕ) (st c2h : Bool) (c : HwDescqContext) :
    CtxtOnly d (qdmaDescqContextProgram d qid st c2h c).1 := by
  have hclr := contextClear_only d qid st c2h true
  unfold qdmaDescqContextProgram
  simp only
  by_cases hneg : (qdmaDescqContextClearHw d qid st c2h true).2 < 0
  · rw [if_pos hneg]
    exact hclr
  · rw [if_neg hneg]
    exact hclr.trans (ctextProgs_only _ _ _)

theorem pfQctxtWrt_only (d : PfDev) (q : MboxQctxt) : CtxtOnly d (pfQctxtWrt d q).1 := by
  have hclr := contextClear_only d q.qid q.st q.c2h true
  unfold pfQctxtWrt
  simp only
  split_ifs
  · exact hclr
  · exact hclr.trans (contextProgram_only _ _ _ _ _)

/-! ## Commands -/

/-- Context `sel` of queue `qid` is the same in both. -/
def SameCtxt (sel : CtxtSel) (qid : ℕ) (d d' : PfDev) : Prop := d'.ctxt sel qid = d.ctxt sel qid

theorem setCtxt_of_ne (d : PfDev) {sel sel' : CtxtSel} {qid qid' : ℕ} (words : ℕ → ℕ)
    (h : sel' ≠ sel ∨ qid' ≠ hwQid qid) : SameCtxt sel' qid' d (d.setCtxt sel qid words) := by
  unfold SameCtxt PfDev.setCtxt
  simp only
  by_cases hs : sel' = sel
  · subst hs
    rw [Function.update_self, Function.update_of_ne (h.resolve_left (fun hne => hne rfl))]
  · rw [Function.update_of_ne hs]

/-- A command touches the context it names. -/
theorem hwIndirectCtextProg_same (d : PfDev) {qid qid' : ℕ} (cmd : CtxtCmd) {sel sel' : CtxtSel}
    (verify : Bool) (h : sel' ≠ sel ∨ qid' ≠ hwQid qid) :
    SameCtxt sel' qid' d (hwIndirectCtextProg d qid cmd sel verify).1 := by
  have hset := fun words => setCtxt_of_ne { d with cmds := d.cmds + 1 } words h
  unfold hwIndirectCtextProg
  simp only
  split
  · rfl
  · exact hset _
  · exact hset _
  · rfl
  · exact hset _
  · exact hset _

/-- Commands in a row touch no others. -/
theorem ctextProgs_same (qid qid' : ℕ) {sel' : CtxtSel}
    (cmds : List (CtxtCmd × CtxtSel × Bool)) (d : PfDev)
    (h : (∀ c ∈ cmds, sel' ≠ c.2.1) ∨ qid' ≠ hwQid qid) :
    SameCtxt sel' qid' d (ctextProgs qid cmds d).1 := by
  induction cmds generalizing d with
  | nil => rfl
  | cons c cmds ih =>
      obtain ⟨cmd, sel, verify⟩ := c
      have hone := hwIndirectCtextProg_same d cmd verify
        (h.imp (fun hall => hall _ (.head _)) id)
      rw [ctextProgs]
      simp only
      split_ifs
      · exact hone
      · exact (ih _ (h.imp (fun hall c hc => hall c (.tail _ hc)) id)).trans hone

theorem contextClear_same (d : PfDev) {qid qid' : ℕ} (sel : CtxtSel) (st c2h clr : Bool)
    (h : qid' ≠ hwQid qid) : SameCtxt sel qid' d (qdmaDescqContextClearHw d qid st c2h clr).1 :=
  ctextProgs_same _ _ _ d (.inr h)

theorem contextProgram_same (d : PfDev) {qid qid' : ℕ} (sel : CtxtSel) (st c2h : Bool)
    (c : HwDescqContext) (h : qid' ≠ hwQid qid) :
    SameCtxt sel qid' d (qdmaDescqContextProgram d qid st c2h c).1 := by
  have hclr := contextClear_same d sel st c2h true h
  unfold qdmaDescqContextProgram
  simp only
  by_cases hneg : (qdmaDescqContextClearHw d qid st c2h true).2 < 0
  · rw [if_pos hneg]
    exact hclr
  · rw [if_neg hneg]
    exact Eq.trans (ctextProgs_same _ _ _ _ (.inr h)) hclr

theorem pfQctxtWrt_same (d : PfDev) {qid' : ℕ} (sel : CtxtSel) (q : MboxQctxt)
    (h : qid' ≠ hwQid q.qid) : SameCtxt sel qid' d (pfQctxtWrt d q).1 := by
  have hclr := contextClear_same d sel q.st q.c2h true h
  unfold pfQctxtWrt
  simp only
  split_ifs
  · exact hclr
  · exact Eq.trans (contextProgram_same _ sel q.st q.c2h q.context h) hclr

/-- Reads leave every context as it is. -/
theorem ctextReads_same (qid : ℕ)
    (reads : List (CtxtSel × (HwDescqContext → PfDev → HwDescqContext))) (c : HwDescqContext)
    (d : PfDev) (sel' : CtxtSel) (qid' : ℕ) :
    SameCtxt sel' qid' d (ctextReads qid reads c d).1 := by
  have hone : ∀ (d : PfDev) sel,
      SameCtxt sel' qid' d (hwIndirectCtextProg d qid .rd sel false).1 := by
    intro d sel
    unfold hwIndirectCtextProg
    cases d.cmdAns d.cmds <;> rfl
  induction reads generalizing c d with
  | nil => rfl
  | cons r reads ih =>
      obtain ⟨sel, store⟩ := r
      rw [ctextReads]
      simp only
      split_ifs
      · exact hone d sel
      · exact Eq.trans (ih _ _) (hone d sel)

/-- Commands run one list after the other. -/
theorem ctextProgs_append (qid : ℕ) (a b : List (CtxtCmd × CtxtSel × Bool)) (d : PfDev) :
    ctextProgs qid (a ++ b) d =
      if (ctextProgs qid a d).2 < 0 then ctextProgs qid a d
      else ctextProgs qid b (ctextProgs qid a d).1 := by
  induction a generalizing d with
  | nil => rfl
  | cons c a ih =>
      obtain ⟨cmd, sel, verify⟩ := c
      rw [List.cons_append, ctextProgs, ctextProgs]
      simp only
      split_ifs with h1 h2
      · rfl
      · rw [ih, if_pos h2]
      · rw [ih, if_neg h2]

/-- If all succeed, each has taken one of the device's answers. -/
theorem ctextProgs_cmds (qid : ℕ) (cmds : List (CtxtCmd × CtxtSel × Bool)) (d : PfDev) :
    (ctextProgs qid cmds d).1.cmdAns = d.cmdAns ∧
      (¬ (ctextProgs qid cmds d).2 < 0 →
        (ctextProgs qid cmds d).1.cmds = d.cmds + cmds.length) := by
  induction cmds generalizing d with
  | nil => exact ⟨rfl, fun _ => rfl⟩
  | cons c cmds ih =>
      obtain ⟨cmd, sel, verify⟩ := c
      have hone : (hwIndirectCtextProg d qid cmd sel verify).1.cmdAns = d.cmdAns ∧
          (hwIndirectCtextProg d qid cmd sel verify).1.cmds = d.cmds + 1 := by
        unfold hwIndirectCtextProg
        simp only
        split <;> exact ⟨rfl, rfl⟩
      rw [ctextProgs]
      simp only
      split_ifs with hrv
      · exact ⟨hone.1, fun h => absurd hrv h⟩
      · obtain ⟨h1, h2⟩ := ih (hwIndirectCtextProg d qid cmd sel verify).1
        refine ⟨h1.trans hone.1, fun h => ?_⟩
        rw [h2 h, hone.2, List.length_cons]
        omega

/-- A WR command writes the words it is given, or fails. -/
theorem hwIndirectCtextProg_wr (d : PfDev) (qid : ℕ) (data : List ℕ) (sel : CtxtSel)
    (verify : Bool) :
    (SameCtxt sel (hwQid qid) d (hwIndirectCtextProg d qid (.wr data) sel verify).1 ∧
        (hwIndirectCtextProg d qid (.wr data) sel verify).2 < 0) ∨
      (hwIndirectCtextProg d qid (.wr data) sel verify).1.ctxt sel (hwQid qid)
        = fun i => data.getD i 0 := by
  have hneg : ebusy < 0 := by decide
  have hset : ∀ d : PfDev, (d.setCtxt sel qid (fun i => data.getD i 0)).ctxt sel
      (hwQid qid)      = fun i => data.getD i 0 := by
    intro d
    unfold PfDev.setCtxt
    simp only [Function.update_self]
  unfold hwIndirectCtextProg
  cases hans : d.cmdAns d.cmds with
  | busy => exact .inl ⟨rfl, hneg⟩
  | ok => exact .inr (hset _)
  | readBusy => exact .inr (hset _)
  | mismatch => exact .inr (hset _)

theorem SameCtxt.trans {sel : CtxtSel} {qid : ℕ} {a b c : PfDev} (h : SameCtxt sel qid a b)
    (h' : SameCtxt sel qid b c) : SameCtxt sel qid a c := Eq.trans h' h

/-- **A context written once** in a row of commands holds the words given, unless the row
fails before. -/
theorem ctextProgs_write (qid : ℕ) (a b : List (CtxtCmd × CtxtSel × Bool)) (data : List ℕ)
    (sel : CtxtSel) (verify : Bool) (d : PfDev) (ha : ∀ c ∈ a, sel ≠ c.2.1)
    (hb : ∀ c ∈ b, sel ≠ c.2.1) :
    (SameCtxt sel (hwQid qid) d (ctextProgs qid (a ++ (.wr data, sel, verify) :: b) d).1 ∧
        (ctextProgs qid (a ++ (.wr data, sel, verify) :: b) d).2 < 0) ∨
      (ctextProgs qid (a ++ (.wr data, sel, verify) :: b) d).1.ctxt sel (hwQid qid)
        = fun i => data.getD i 0 := by
  have hbefore := ctextProgs_same qid (hwQid qid) a d (.inl ha)
  rw [ctextProgs_append]
  generalize ctextProgs qid a d = r at hbefore ⊢
  obtain ⟨d1, rv⟩ := r
  simp only at hbefore ⊢
  by_cases hneg : rv < 0
  · rw [if_pos hneg]
    exact .inl ⟨hbefore, hneg⟩
  rw [if_neg hneg, ctextProgs]
  have hwr := hwIndirectCtextProg_wr d1 qid data sel verify
  generalize hwIndirectCtextProg d1 qid (.wr data) sel verify = r at hwr ⊢
  obtain ⟨d2, rv2⟩ := r
  simp only at hwr ⊢
  rcases hwr with ⟨hsame, hneg2⟩ | hnew
  · rw [if_pos hneg2]
    exact .inl ⟨hbefore.trans hsame, hneg2⟩
  · right
    split_ifs
    · exact hnew
    · exact Eq.trans (ctextProgs_same qid (hwQid qid) b d2 (.inl hb)) hnew

/-! ## The handler -/

/-- What the loop's body does to the device besides. -/
theorem pfProcOne_dev (d : PfDev) (s : ℤ) {m : MboxMsg} (hack : m.ack = false) :
    ∃ n k, (pfProcOne d s m).1 = { (pfProcOp d m).1 with sends := n, checks := k } := by
  unfold pfProcOne PfDev.mboxSend PfDev.checkOffline
  simp only [hack, Bool.false_eq_true, if_false]
  split_ifs <;> exact ⟨_, _, rfl⟩

end Qdma
