/-
# What a VF reaches through its PF

A VF has no registers of its own for contexts: it asks its PF by mailbox, and the PF's handler
runs the commands.  The handler takes the queue from the message as it is, and the device the eleven
bits of it that the command register has room for; the range recorded in the function's FMAP
register is not looked at.

`vf_isolation` says what that gives: a message reaches the contexts of one queue, the `hwQid` of
the number it names, the FMAP register and the slot of its sender and nothing else, and its
answer shows nothing else; the contexts are those of the sender's own queues exactly for
`Confined` messages.
-/
import Qdma.CtxtFrame
import Qdma.MboxStatus

namespace Qdma

/-! ## The range of a function -/

/-- The range the device reads from the register value `r` of function `f`. -/
def fmapRange (f r : ℕ) : Fmap :=
  ⟨f, r &&& selFmapQidBaseMask, (r >>> selFmapQidMaxShift) &&& selFmapQidMaxMask⟩

/-- The device reads what was meant. -/
theorem fmapRange_hwSetFmap {m : Fmap} (h : m.Fits) : fmapRange m.funcId (hwSetFmap m) = m := by
  obtain ⟨hb, hq⟩ := h.decode
  unfold fmapRange
  rw [hb, hq]

instance Fmap.decidableOwns (m : Fmap) (q : ℕ) : Decidable (m.Owns q) :=
  inferInstanceAs (Decidable (m.qbase ≤ q ∧ q < m.qbase + m.qmax))

/-! ## Isolation -/

/-- What may become of the slot `a` at a message from `f`: it is kept, or it is `f`'s and stays
so or becomes free, or it is free and becomes `f`'s. -/
def SlotStep (f : ℕ) (a b : VfInfo) : Prop :=
  b = a ∨ (a.funcId = f ∧ (b.funcId = f ∨ b.funcId = qdmaFuncIdInvalid)) ∨
    (a.funcId = qdmaFuncIdInvalid ∧ b.funcId = f)

/-- **What may be changed** for `f`: the contexts of the queues in `Q`, its FMAP register and its
slot. -/
structure TouchesOnly (Q : ℕ → Prop) (f : ℕ) (d d' : PfDev) : Prop where
  ctxt : ∀ sel q, ¬ Q q → SameCtxt sel q d d'
  fmap : ∀ g, g ≠ f → d'.fmapReg g = d.fmapReg g
  slots : List.Forall₂ (SlotStep f) d.vfInfo d'.vfInfo
  rest : d' = { d with
    ctxt := d'.ctxt, cmds := d'.cmds, fmapReg := d'.fmapReg, vfInfo := d'.vfInfo
    sends := d'.sends, checks := d'.checks }

/-- Two PFs with the same contexts for the queues in `Q`, and with contexts for other queues,
FMAP registers and slots that may differ. -/
def Alike (Q : ℕ → Prop) (d d' : PfDev) : Prop :=
  (∃ c r v, d' = { d with ctxt := c, fmapReg := r, vfInfo := v }) ∧
    ∀ sel q, Q q → SameCtxt sel q d d'

/-- **Isolation** of the queues outside `Q` from the message `m`: its handling changes only what
it may, and PFs that are alike give the same answer and stay alike. -/
structure Isolated (Q : ℕ → Prop) (d : PfDev) (m : MboxMsg) : Prop where
  touches : ∀ s, TouchesOnly Q m.src d (pfProcOne d s m).1
  answer : ∀ s d', Alike Q d d' → (pfProcOne d' s m).2 = (pfProcOne d s m).2
  alike : ∀ s d', Alike Q d d' → Alike Q (pfProcOne d s m).1 (pfProcOne d' s m).1

/-- **The messages that keep to the range**: those that neither change nor show a context, and
those whose queue, as the device takes it, is in it. -/
def Confined (R : Fmap) (m : MboxMsg) : Prop :=
  m.ack = false → m.op = .qctxtClr ∨ m.op = .qctxtWrt ∨ (m.op = .qctxtRd ∧ m.wait = true) →
    R.Owns (hwQid m.qctxt.qid)

/-! ## Two PFs that are alike -/

section Alike

variable {Q : ℕ → Prop} {d d' : PfDev}

theorem Alike.words (h : Alike Q d d') {sel : CtxtSel} {qid : ℕ} (hq : Q (hwQid qid)) (cnt : ℕ) :
    d'.ctxtWords sel qid cnt = d.ctxtWords sel qid cnt := by
  unfold PfDev.ctxtWords
  rw [h.2 sel _ hq]

/-- A command does the same to both. -/
theorem Alike.prog (h : Alike Q d d') (qid : ℕ) (cmd : CtxtCmd) (sel : CtxtSel) (verify : Bool) :
    Alike Q (hwIndirectCtextProg d qid cmd sel verify).1
        (hwIndirectCtextProg d' qid cmd sel verify).1 ∧
      (hwIndirectCtextProg d' qid cmd sel verify).2
        = (hwIndirectCtextProg d qid cmd sel verify).2 := by
  obtain ⟨⟨c, r, v, rfl⟩, hc⟩ := h
  have hcount : Alike Q { d with cmds := d.cmds + 1 }
      { d with ctxt := c, fmapReg := r, vfInfo := v, cmds := d.cmds + 1 } :=
    ⟨⟨c, r, v, rfl⟩, hc⟩
  have hset : ∀ words, Alike Q (({ d with cmds := d.cmds + 1 } : PfDev).setCtxt sel qid words)
      (({ d with ctxt := c, fmapReg := r, vfInfo := v, cmds := d.cmds + 1 } : PfDev).setCtxt
        sel qid words) := by
    intro words
    refine ⟨⟨_, r, v, rfl⟩, fun sel' q hq => ?_⟩
    have hold : c sel' q = d.ctxt sel' q := hc sel' q hq
    unfold SameCtxt PfDev.setCtxt
    simp only
    by_cases hsel : sel' = sel
    · subst hsel
      rw [Function.update_self, Function.update_self]
      by_cases hqid : q = hwQid qid
      · rw [hqid, Function.update_self, Function.update_self]
      · rw [Function.update_of_ne hqid, Function.update_of_ne hqid]
        exact hold
    · rw [Function.update_of_ne hsel, Function.update_of_ne hsel]
      exact hold
  unfold hwIndirectCtextProg
  simp only
  split
  · exact ⟨hcount, rfl⟩
  · exact ⟨hset _, rfl⟩
  · exact ⟨hset _, rfl⟩
  · exact ⟨hcount, rfl⟩
  · exact ⟨hset _, rfl⟩
  · exact ⟨hset _, rfl⟩

theorem Alike.progs (h : Alike Q d d') (qid : ℕ) (cmds : List (CtxtCmd × CtxtSel × Bool)) :
    Alike Q (ctextProgs qid cmds d).1 (ctextProgs qid cmds d').1 ∧
      (ctextProgs qid cmds d').2 = (ctextProgs qid cmds d).2 := by
  induction cmds generalizing d d' with
  | nil => exact ⟨h, rfl⟩
  | cons c cmds ih =>
      obtain ⟨cmd, sel, verify⟩ := c
      obtain ⟨hdev, hrv⟩ := h.prog qid cmd sel verify
      rw [ctextProgs, ctextProgs]
      simp only
      rw [hrv]
      split_ifs
      · exact ⟨hdev, rfl⟩
      · exact ih hdev

/-- Reads run alike, and read the same from a queue in `Q`. -/
theorem Alike.reads (h : Alike Q d d') (qid : ℕ)
    (reads : List (CtxtSel × (HwDescqContext → PfDev → HwDescqContext))) (c c' : HwDescqContext) :
    (Alike Q (ctextReads qid reads c d).1 (ctextReads qid reads c' d').1 ∧
        (ctextReads qid reads c' d').2.2 = (ctextReads qid reads c d).2.2) ∧
      (c' = c → (∀ r ∈ reads, ∀ c d d', Alike Q d d' → r.2 c d' = r.2 c d) →
        (ctextReads qid reads c' d').2.1 = (ctextReads qid reads c d).2.1) := by
  induction reads generalizing c c' d d' with
  | nil => exact ⟨⟨h, rfl⟩, fun heq _ => heq⟩
  | cons r reads ih =>
      obtain ⟨sel, store⟩ := r
      obtain ⟨hdev, hrv⟩ := h.prog qid .rd sel false
      rw [ctextReads, ctextReads]
      simp only
      rw [hrv]
      split_ifs
      · exact ⟨⟨hdev, rfl⟩, fun heq _ => heq⟩
      · refine ⟨(ih hdev _ _).1, fun heq hstore => ?_⟩
        refine (ih hdev _ _).2 ?_ (fun r hr => hstore r (.tail _ hr))
        rw [heq]
        exact hstore (sel, store) (.head _) c _ _ hdev

theorem Alike.contextClear (h : Alike Q d d') (qid : ℕ) (st c2h clr : Bool) :
    Alike Q (qdmaDescqContextClearHw d qid st c2h clr).1
        (qdmaDescqContextClearHw d' qid st c2h clr).1 ∧
      (qdmaDescqContextClearHw d' qid st c2h clr).2
        = (qdmaDescqContextClearHw d qid st c2h clr).2 := h.progs _ _

theorem Alike.contextProgram (h : Alike Q d d') (qid : ℕ) (st c2h : Bool) (c : HwDescqContext) :
    Alike Q (qdmaDescqContextProgram d qid st c2h c).1
        (qdmaDescqContextProgram d' qid st c2h c).1 ∧
      (qdmaDescqContextProgram d' qid st c2h c).2
        = (qdmaDescqContextProgram d qid st c2h c).2 := by
  obtain ⟨hdev, hrv⟩ := h.contextClear qid st c2h true
  unfold qdmaDescqContextProgram
  simp only
  rw [hrv]
  by_cases hneg : (qdmaDescqContextClearHw d qid st c2h true).2 < 0
  · rw [if_pos hneg, if_pos hneg]
    exact ⟨hdev, rfl⟩
  · rw [if_neg hneg, if_neg hneg]
    exact hdev.progs _ _

theorem Alike.qctxtWrt (h : Alike Q d d') (q : MboxQctxt) :
    Alike Q (pfQctxtWrt d q).1 (pfQctxtWrt d' q).1 ∧
      (pfQctxtWrt d' q).2 = (pfQctxtWrt d q).2 := by
  obtain ⟨hdev, hrv⟩ := h.contextClear q.qid q.st q.c2h true
  unfold pfQctxtWrt
  simp only
  rw [hrv]
  split_ifs
  · exact ⟨hdev, rfl⟩
  · exact hdev.contextProgram _ _ _ _

/-- Every read that `qdma_descq_context_read` makes of a queue in `Q`. -/
theorem Alike.contextRead (h : Alike Q d d') (qid : ℕ) (st c2h : Bool) :
    (Alike Q (qdmaDescqContextRead d qid st c2h).1 (qdmaDescqContextRead d' qid st c2h).1 ∧
        (qdmaDescqContextRead d' qid st c2h).2.2 = (qdmaDescqContextRead d qid st c2h).2.2) ∧
      (Q (hwQid qid) → (qdmaDescqContextRead d' qid st c2h).2.1
        = (qdmaDescqContextRead d qid st c2h).2.1) := by
  unfold qdmaDescqContextRead
  refine (h.reads qid _ {} {}).imp_right (fun hread hq => hread rfl ?_)
  intro r hr c d d' hd
  rw [List.mem_append] at hr
  rcases hr with hr | hr
  · simp only [List.mem_cons, List.not_mem_nil, or_false] at hr
    rcases hr with rfl | rfl | rfl | rfl <;> simp only [hd.words hq]
  · split_ifs at hr
    · simp only [List.mem_cons, List.not_mem_nil, or_false] at hr
      rcases hr with rfl | rfl <;> simp only [hd.words hq]
    · exact absurd hr (List.not_mem_nil)

/-- **The switch of the handler** on both: the same answer, unless a context outside `Q` is read. -/
theorem Alike.pfProcOp (h : Alike Q d d') (m : MboxMsg) :
    (Alike Q (pfProcOp d m).1 (pfProcOp d' m).1 ∧
        (pfProcOp d' m).2.2 = (pfProcOp d m).2.2) ∧
      (m.op ≠ .qctxtRd ∨ Q (hwQid m.qctxt.qid) → (pfProcOp d' m).2.1 = (pfProcOp d m).2.1) := by
  have hclr := h.contextClear m.qctxt.qid m.qctxt.st m.qctxt.c2h false
  have hrd := h.contextRead m.qctxt.qid m.qctxt.st m.qctxt.c2h
  have hwrt := h.qctxtWrt m.qctxt
  unfold Qdma.pfProcOp
  cases hop : m.op with
  | qctxtClr =>
      simp only
      exact ⟨⟨hclr.1, by rw [hclr.2]⟩, fun _ => trivial⟩
  | qctxtWrt =>
      simp only
      exact ⟨⟨hwrt.1, by rw [hwrt.2]⟩, fun _ => trivial⟩
  | qctxtRd =>
      simp only
      refine ⟨⟨hrd.1.1, by rw [hrd.1.2]⟩, fun hq => ?_⟩
      rw [hrd.2 (hq.resolve_left (fun hne => hne rfl))]
  | csr =>
      obtain ⟨⟨c, r, v, rfl⟩, hc⟩ := h
      have htable : ({ d with ctxt := c, fmapReg := r, vfInfo := v } : PfDev).csrTable m.csr.type
          = d.csrTable m.csr.type := rfl
      simp only
      rw [htable]
      cases d.csrTable m.csr.type with
      | none => exact ⟨⟨⟨⟨c, r, v, rfl⟩, hc⟩, rfl⟩, fun _ => rfl⟩
      | some _ => exact ⟨⟨⟨⟨c, r, v, rfl⟩, hc⟩, rfl⟩, fun _ => rfl⟩
  | _ =>
      obtain ⟨⟨c, r, v, rfl⟩, hc⟩ := h
      exact ⟨⟨⟨⟨_, _, _, rfl⟩, hc⟩, rfl⟩, fun _ => rfl⟩

/-- **The loop's body** on both: the same answer, unless a context outside `Q` is read into one. -/
theorem Alike.pfProcOne (h : Alike Q d d') (s : ℤ) (m : MboxMsg) :
    Alike Q (pfProcOne d s m).1 (pfProcOne d' s m).1 ∧
      ((m.ack = false → m.op = .qctxtRd ∧ m.wait = true → Q (hwQid m.qctxt.qid)) →
        (pfProcOne d' s m).2 = (pfProcOne d s m).2) := by
  obtain ⟨⟨hdev, hrest⟩, hmsg⟩ := h.pfProcOp m
  have hw := pfProcOp_wait d m
  have hw' := pfProcOp_wait d' m
  unfold Qdma.pfProcOne
  cases hack : m.ack with
  | true => exact ⟨h, fun _ => rfl⟩
  | false =>
      simp only [Bool.false_eq_true, if_false]
      generalize Qdma.pfProcOp d m = r at hdev hrest hmsg hw ⊢
      generalize Qdma.pfProcOp d' m = r' at hdev hrest hmsg hw' ⊢
      obtain ⟨d1, m1, rv, set⟩ := r
      obtain ⟨d1', m1', rv', set'⟩ := r'
      obtain ⟨rfl, rfl⟩ := Prod.mk.inj hrest
      simp only at hdev hmsg hw hw' ⊢
      obtain ⟨⟨c, r, v, rfl⟩, hc⟩ := hdev
      rw [hw, hw']
      cases hwait : m.wait with
      | false => exact ⟨⟨⟨c, r, v, rfl⟩, hc⟩, fun _ => rfl⟩
      | true =>
          unfold PfDev.mboxSend PfDev.checkOffline
          simp only [if_true]
          cases d1.sendOk d1.sends with
          | false => exact ⟨⟨⟨c, r, v, rfl⟩, hc⟩, fun _ => rfl⟩
          | true =>
              refine ⟨⟨⟨c, r, v, rfl⟩, hc⟩, fun hq => ?_⟩
              have hsame : m1' = m1 := by
                apply hmsg
                by_cases hop : m.op = .qctxtRd
                · exact .inr (hq trivial ⟨hop, trivial⟩)
                · exact .inl hop
              rw [hsame]
              rfl

end Alike

/-! ## What a message changes -/

theorem offline_slots (vfs : List VfInfo) (f : ℕ) :
    List.Forall₂ (SlotStep f) vfs (xdevSriovVfOffline vfs f) := by
  induction vfs with
  | nil => exact .nil
  | cons vf vfs ih =>
      unfold xdevSriovVfOffline at ih ⊢
      rw [List.map_cons]
      refine .cons ?_ ih
      split_ifs with heq
      · exact .inr (.inl ⟨heq, .inr rfl⟩)
      · exact .inl rfl

theorem slots_refl (vfs : List VfInfo) (f : ℕ) : List.Forall₂ (SlotStep f) vfs vfs :=
  List.forall₂_same.mpr (fun _ _ => .inl rfl)

theorem online_slots (vfs : List VfInfo) (f : ℕ) :
    List.Forall₂ (SlotStep f) vfs (xdevSriovVfOnline vfs f) := by
  induction vfs with
  | nil => exact .nil
  | cons vf vfs ih =>
      rw [xdevSriovVfOnline]
      split_ifs with hfree
      · exact .cons (.inr (.inr ⟨hfree, rfl⟩)) (slots_refl vfs f)
      · exact .cons (.inl rfl) ih

theorem fmap_slots (vfs : List VfInfo) (f qbase qmax : ℕ) :
    List.Forall₂ (SlotStep f) vfs (xdevSriovVfFmap vfs f qbase qmax) := by
  induction vfs with
  | nil => exact .nil
  | cons vf vfs ih =>
      rw [xdevSriovVfFmap]
      split_ifs with heq
      · exact .cons (.inr (.inl ⟨heq, .inl heq⟩)) (slots_refl vfs f)
      · exact .cons (.inl rfl) ih

/-- A message of the mailbox changes the contexts of a queue only if it asks for that. -/
theorem pfProcOp_ctxt (d : PfDev) (m : MboxMsg) (sel : CtxtSel) {q : ℕ}
    (h : m.op = .qctxtClr ∨ m.op = .qctxtWrt → q ≠ hwQid m.qctxt.qid) :
    SameCtxt sel q d (pfProcOp d m).1 := by
  unfold pfProcOp
  cases hop : m.op with
  | qctxtClr => exact contextClear_same d sel _ _ _ (h (.inl hop))
  | qctxtWrt => exact pfQctxtWrt_same d sel _ (h (.inr hop))
  | qctxtRd => exact ctextReads_same _ _ _ _ _ _
  | csr =>
      simp only
      split <;> rfl
  | _ => rfl

/-- **The switch of the handler** changes nothing else. -/
theorem pfProcOp_touches (d : PfDev) (m : MboxMsg) {Q : ℕ → Prop}
    (h : m.op = .qctxtClr ∨ m.op = .qctxtWrt → Q (hwQid m.qctxt.qid)) :
    TouchesOnly Q m.src d (pfProcOp d m).1 := by
  have hctxt : ∀ sel q, ¬ Q q → SameCtxt sel q d (pfProcOp d m).1 := by
    intro sel q hq
    refine pfProcOp_ctxt d m sel (fun hop heq => ?_)
    rw [heq] at hq
    exact hq (h hop)
  have honly : ∀ d', CtxtOnly d d' → (∀ sel q, ¬ Q q → SameCtxt sel q d d') →
      TouchesOnly Q m.src d d' := by
    rintro d' ⟨c, k, rfl⟩ hc
    exact ⟨hc, fun _ _ => rfl, slots_refl _ _, rfl⟩
  revert hctxt
  unfold pfProcOp
  cases hop : m.op with
  | qctxtClr => exact honly _ (contextClear_only _ _ _ _ _)
  | qctxtWrt => exact honly _ (pfQctxtWrt_only _ _)
  | qctxtRd => exact honly _ (ctextReads_only _ _ _ _)
  | hello => exact fun hc => ⟨hc, fun _ _ => rfl, online_slots _ _, rfl⟩
  | bye =>
      exact fun hc => ⟨hc, fun _ hne => Function.update_of_ne hne _ _, offline_slots _ _, rfl⟩
  | fmap =>
      exact fun hc => ⟨hc, fun _ hne => Function.update_of_ne hne _ _, fmap_slots _ _ _ _, rfl⟩
  | csr =>
      simp only
      split <;> exact honly d (CtxtOnly.refl d)
  | _ => exact honly d (CtxtOnly.refl d)

/-- **A message keeps to `Q`** if the queue it names is there, or it neither changes nor shows a
context. -/
theorem isolated_of (Q : ℕ → Prop) (d : PfDev) (m : MboxMsg)
    (h : m.ack = false → m.op = .qctxtClr ∨ m.op = .qctxtWrt ∨ (m.op = .qctxtRd ∧ m.wait = true) →
      Q (hwQid m.qctxt.qid)) : Isolated Q d m := by
  constructor
  · intro s
    cases hack : m.ack with
    | true =>
        unfold pfProcOne
        rw [if_pos hack]
        exact ⟨fun _ _ _ => rfl, fun _ _ => rfl, slots_refl _ _, rfl⟩
    | false =>
        have ht := pfProcOp_touches d m (Q := Q)
          (fun hop => h hack (hop.imp_right (fun hw => .inl hw)))
        obtain ⟨n, k, heq⟩ := pfProcOne_dev d s hack
        rw [heq]
        refine ⟨ht.ctxt, ht.fmap, ht.slots, ?_⟩
        conv_lhs => rw [ht.rest]
  · intro s d' hd
    exact (hd.pfProcOne s m).2 (fun hack hop => h hack (.inr (.inr hop)))
  · exact fun s d' hd => (hd.pfProcOne s m).1

/-! ## Messages that do not -/

/-- A PF whose contexts of queue `q` hold `w q` throughout, and whose commands succeed. -/
def flatPf (f r : ℕ) (w : ℕ → ℕ) : PfDev where
  fmapReg := Function.update (fun _ => 0) f r
  ctxt := fun _ q _ => w q

/-- A message that clears or writes the contexts of a queue leaves its HW context zero. -/
theorem flatPf_cleared (f r : ℕ) (w : ℕ → ℕ) {m : MboxMsg}
    (hop : m.op = .qctxtClr ∨ m.op = .qctxtWrt) :
    (pfProcOp (flatPf f r w) m).1.ctxt (if m.qctxt.c2h then .hwC2h else .hwH2c)
      (hwQid m.qctxt.qid) 0 = 0 := by
  rcases hop with hop | hop <;> cases hst : m.qctxt.st <;> cases hc2h : m.qctxt.c2h <;>
    simp [pfProcOp, hop, hst, hc2h, flatPf, qdmaDescqContextClearHw, pfQctxtWrt,
      qdmaDescqContextProgram, ctextProgs, hwIndirectCtextProg, PfDev.setCtxt]

/-- A read that waits is answered with the words of the queue it names. -/
theorem flatPf_read (f r : ℕ) (w : ℕ → ℕ) (s : ℤ) {m : MboxMsg} (hack : m.ack = false)
    (hop : m.op = .qctxtRd) (hwait : m.wait = true) :
    ((pfProcOne (flatPf f r w) s m).2.2.1.map (fun a => a.qctxt.context.sw))
      = some (List.replicate 4 (w (hwQid m.qctxt.qid))) := by
  cases hst : m.qctxt.st <;> cases hc2h : m.qctxt.c2h <;>
    simp [pfProcOne, pfProcOp, hack, hop, hwait, hst, hc2h, flatPf, qdmaDescqContextRead,
      ctextReads, hwIndirectCtextProg, PfDev.ctxtWords, PfDev.mboxSend, PfDev.checkOffline,
      MboxMsg.respond, List.range_succ]

/-- **Only confined messages keep to the range.** -/
theorem confined_of {r : ℕ} {m : MboxMsg}
    (h : ∀ d : PfDev, d.fmapReg m.src = r → Isolated (fmapRange m.src r).Owns d m) :
    Confined (fmapRange m.src r) m := by
  intro hack hop
  by_contra hout
  have hreg : ∀ w, (flatPf m.src r w).fmapReg m.src = r := by
    intro w
    exact Function.update_self m.src r (fun _ => (0 : ℕ))
  have hchange : m.op = .qctxtClr ∨ m.op = .qctxtWrt → False := by
    intro hop
    have hkept := ((h _ (hreg (fun _ => 1))).touches 0).ctxt
      (if m.qctxt.c2h then .hwC2h else .hwH2c) (hwQid m.qctxt.qid) hout
    obtain ⟨n, k, heq⟩ := pfProcOne_dev (flatPf m.src r (fun _ => 1)) 0 hack
    rw [heq] at hkept
    have hzero := flatPf_cleared m.src r (fun _ => 1) hop
    have hold : (1 : ℕ) = 0 := (congrFun hkept 0).symm.trans hzero
    exact absurd hold (by decide)
  rcases hop with hclr | hwrt | ⟨hrd, hwait⟩
  · exact hchange (.inl hclr)
  · exact hchange (.inr hwrt)
  · -- two PFs that differ in the contexts of that queue
    let w : ℕ → ℕ := fun q => if q = hwQid m.qctxt.qid then 1 else 0
    have hother : ∀ q, (fmapRange m.src r).Owns q → w q = 0 := by
      intro q hq
      refine if_neg (fun heq => ?_)
      rw [heq] at hq
      exact hout hq
    have halike : Alike (fmapRange m.src r).Owns (flatPf m.src r (fun _ => 0))
        (flatPf m.src r w) :=
      ⟨⟨_, _, _, rfl⟩, fun sel q hq => funext (fun _ => hother q hq)⟩
    have hsame := (h _ (hreg (fun _ => 0))).answer 0 _ halike
    have hzero := flatPf_read m.src r (fun _ => 0) 0 hack hrd hwait
    have hone := flatPf_read m.src r w 0 hack hrd hwait
    rw [hsame, hzero] at hone
    have hw : w (hwQid m.qctxt.qid) = 1 := if_pos rfl
    rw [hw] at hone
    exact absurd hone (by decide)

/-- **What a VF reaches.**  A message reaches the one queue that the device takes its number for;
and handling the messages of a function keeps to the range recorded for it, in every state of the
PF, exactly for the confined ones. -/
theorem vf_isolation :
    (∀ (d : PfDev) (m : MboxMsg), Isolated (fun q => q = hwQid m.qctxt.qid) d m) ∧
      ∀ (r : ℕ) (m : MboxMsg),
        (∀ d : PfDev, d.fmapReg m.src = r → Isolated (fmapRange m.src r).Owns d m) ↔
          Confined (fmapRange m.src r) m :=
  ⟨fun d m => isolated_of _ d m (fun _ _ => rfl),
    fun _ _ => ⟨confined_of, fun h d _ => isolated_of _ d _ h⟩⟩

/-- A PF with 512 queues of its own that has handled the HELLO and the FMAP message of its
VF 4, which asked for 8 queues. -/
def servedPf : PfDev :=
  (pfMboxProc [{ op := .hello, src := 4 }, { op := .fmap, src := 4, fmap := ⟨0, 8⟩ }]
    { qsetsMax := 512, vfInfo := [⟨qdmaFuncIdInvalid, 0, 0⟩], ctxt := fun _ q _ => q + 1 }).1

/-- **A VF clears a queue of its PF**, and reads its context: the range recorded is that of the
queues 512 to 519, and queue 0 is not in it. -/
theorem vf_clears_pf_queue :
    fmapRange 4 (servedPf.fmapReg 4) = ⟨4, 512, 8⟩ ∧
      (pfProcOne servedPf 0 { op := .qctxtClr, src := 4, wait := true }).1.ctxt .swH2c 0 0
        ≠ servedPf.ctxt .swH2c 0 0 ∧
      (pfProcOne servedPf 0 { op := .qctxtRd, src := 4, wait := true }).2.2.1.map
        (fun a => a.qctxt.context.sw) = some [1, 1, 1, 1] ∧
      ¬ Isolated (fmapRange 4 (servedPf.fmapReg 4)).Owns servedPf
        { op := .qctxtClr, src := 4, wait := true } := by
  have hrange : fmapRange 4 (servedPf.fmapReg 4) = ⟨4, 512, 8⟩ := by decide
  have hchanged : (pfProcOne servedPf 0 { op := .qctxtClr, src := 4, wait := true }).1.ctxt
      .swH2c 0 0 ≠ servedPf.ctxt .swH2c 0 0 := by decide
  refine ⟨hrange, hchanged, by decide, fun h => hchanged ?_⟩
  rw [hrange] at h
  exact congrFun ((h.touches 0).ctxt .swH2c 0 (by decide)) 0

end Qdma
