/-
# The indirect context registers

The registers behind `hw_indirect_ctext_prog`: four words of data, four of mask, and the command
register with queue, operation and selector.  The device keeps four words for each selector and
queue; a CLR command zeroes them, WR writes them through the mask, RD returns them and INV
invalidates them.  It is never busy.

`context_program_read`: the contexts of a queue read back as programmed, and no others change.
`hwIndirectCtextProg_refines` relates a command here to the same command of the mailbox
handler's model, which knows no registers.
-/
import Qdma.CtxtFrame
import Qdma.BitField

namespace Qdma.Reg

open BitField

/-! ## The device -/

/-- `u32`. -/
abbrev Word := BitVec 32

/-- `enum ind_ctxt_cmd_op`. -/
inductive CmdOp where
  | clr
  | wr
  | rd
  | inv
  deriving DecidableEq

/-- Its numbers. -/
def CmdOp.code : CmdOp → ℕ
  | .clr => 0
  | .wr => 1
  | .rd => 2
  | .inv => 3

/-- The numbers of `enum ind_ctxt_cmd_sel`. -/
def selCode : CtxtSel → ℕ
  | .swC2h => 0
  | .swH2c => 1
  | .hwC2h => 2
  | .hwH2c => 3
  | .crC2h => 4
  | .crH2c => 5
  | .wrb => 6
  | .pftch => 7
  | .qid2vec => 12

/-- `QDMA_REG_IND_CTXT_REG_COUNT`. -/
def qdmaRegIndCtxtRegCount : ℕ := 4

/-- `IND_CTXT_CMD_QID`. -/
def indCtxtCmdQid : Field := ⟨7, 11⟩

/-- `IND_CTXT_CMD_OP`. -/
def indCtxtCmdOp : Field := ⟨5, 2⟩

/-- `IND_CTXT_CMD_SEL`. -/
def indCtxtCmdSel : Field := ⟨1, 4⟩

/-- The registers, and the words by selector and queue. -/
structure CtxtDev where
  mask : Fin 4 → Word
  data : Fin 4 → Word
  cell : ℕ × ℕ → Fin 4 → Word

/-- The device takes a command. -/
def CtxtDev.exec (h : CtxtDev) (op : ℕ) (at_ : ℕ × ℕ) : CtxtDev :=
  match op with
  | 1 =>
      { h with cell := Function.update h.cell at_ (fun i =>
          (h.cell at_ i &&& ~~~(h.mask i)) ||| (h.data i &&& h.mask i)) }
  | 2 => { h with data := h.cell at_ }
  | _ => { h with cell := Function.update h.cell at_ (fun _ => 0) }

/-- A write to the command register. -/
def CtxtDev.command (h : CtxtDev) (v : ℕ) : CtxtDev :=
  h.exec (indCtxtCmdOp.get v) (indCtxtCmdSel.get v, indCtxtCmdQid.get v)

/-! ## The driver -/

/-- The word for the command register. -/
def cmdWord (qidHw op sel : ℕ) : ℕ :=
  u32 (indCtxtCmdQid.put qidHw ||| indCtxtCmdOp.put op ||| indCtxtCmdSel.put sel)

/-- The first words of the data registers. -/
def CtxtDev.readData (h : CtxtDev) (cnt : ℕ) : List Word := (List.ofFn h.data).take cnt

/-- `hw_indirect_ctext_prog`: the device, the return value and what `data` holds then. -/
def hwIndirectCtextProg (h : CtxtDev) (qidHw : ℕ) (op : CmdOp) (sel : CtxtSel)
    (data : Option (List Word)) (cnt : ℕ) (verify : Bool) :
    CtxtDev × ℤ × Option (List Word) :=
  let moves := op = .wr ∨ op = .rd
  if moves ∧ (cnt = 0 ∨ cnt > qdmaRegIndCtxtRegCount) then (h, einval, data)
  else if moves ∧ data = none then (h, einval, data)
  else
    let words := data.getD []
    let h := if moves then { h with mask := fun _ => 0xFFFFFFFF } else h
    let h :=
      if op = .wr then { h with data := fun i => if i < cnt then words.getD i 0 else 0 } else h
    let h := h.command (cmdWord qidHw op.code (selCode sel))
    if op = .rd then (h, 1, some (h.readData cnt))
    else if !verify then (h, 1, data)
    else
      -- what was written is read back
      let h := h.command (cmdWord qidHw CmdOp.rd.code (selCode sel))
      if words.take cnt = h.readData cnt then (h, 1, data) else (h, ebusy, data)

/-- The arguments of a command that returns no words. -/
structure Step where
  op : CmdOp
  sel : CtxtSel
  data : Option (List Word) := none
  cnt : ℕ := 0
  verify : Bool := false

/-- Commands for one queue, up to the first that fails. -/
def progs (qidHw : ℕ) : List Step → CtxtDev → CtxtDev × ℤ
  | [], h => (h, 0)
  | c :: cs, h =>
      let (h, rv, _) := hwIndirectCtextProg h qidHw c.op c.sel c.data c.cnt c.verify
      if rv < 0 then (h, rv) else progs qidHw cs h

/-- `struct hw_descq_context`. -/
structure HwDescqContext where
  sw : Fin 4 → Word := fun _ => 0
  prefetch : Fin 2 → Word := fun _ => 0
  wrb : Fin 4 → Word := fun _ => 0
  hw : Fin 2 → Word := fun _ => 0
  cr : Fin 1 → Word := fun _ => 0
  qid2vec : Fin 1 → Word := fun _ => 0

/-- `QDMA_CTXT_SEL_SW_C2H` or `_H2C`. -/
def selSw (c2h : Bool) : CtxtSel := if c2h then .swC2h else .swH2c

/-- `QDMA_CTXT_SEL_HW_C2H` or `_H2C`. -/
def selHw (c2h : Bool) : CtxtSel := if c2h then .hwC2h else .hwH2c

/-- `QDMA_CTXT_SEL_CR_C2H` or `_H2C`. -/
def selCr (c2h : Bool) : CtxtSel := if c2h then .crC2h else .crH2c

/-- A CLR command. -/
def clrStep (sel : CtxtSel) : Step := { op := .clr, sel := sel }

/-- A WR command that is verified. -/
def wrStep {n : ℕ} (sel : CtxtSel) (w : Fin n → Word) : Step :=
  { op := .wr, sel := sel, data := some (List.ofFn w), cnt := n, verify := true }

/-- The commands of `qdma_descq_context_clear`. -/
def clearSteps (st c2h clr : Bool) : List Step :=
  [{ op := if clr then .clr else .inv, sel := selSw c2h }, clrStep (selHw c2h),
    clrStep (selCr c2h)] ++ if st && c2h then [clrStep .pftch, clrStep .wrb] else []

/-- `qdma_descq_context_clear`. -/
def qdmaDescqContextClear (h : CtxtDev) (qidHw : ℕ) (st c2h clr : Bool) : CtxtDev × ℤ :=
  progs qidHw (clearSteps st c2h clr) h

/-- `qdma_descq_context_program`. -/
def qdmaDescqContextProgram (h : CtxtDev) (qidHw : ℕ) (st c2h : Bool) (c : HwDescqContext) :
    CtxtDev × ℤ :=
  let (h, rv) := qdmaDescqContextClear h qidHw st c2h true
  if rv < 0 then (h, rv)
  else
    progs qidHw
      ([wrStep (selSw c2h) c.sw, wrStep .qid2vec c.qid2vec]
        ++ if st && c2h then [wrStep .pftch c.prefetch, wrStep .wrb c.wrb] else []) h

/-- One RD command of `qdma_descq_context_read`. -/
def readCtxt (h : CtxtDev) (qidHw : ℕ) (sel : CtxtSel) (n : ℕ) : CtxtDev × ℤ × (Fin n → Word) :=
  let (h, rv, data) := hwIndirectCtextProg h qidHw .rd sel (some (List.replicate n 0)) n false
  (h, rv, fun i => (data.getD []).getD i 0)

/-- The part of `qdma_descq_context_read` for ST C2H queues. -/
def readStC2h (h : CtxtDev) (qidHw : ℕ) (c : HwDescqContext) : CtxtDev × ℤ × HwDescqContext :=
  let (h, rv, wrb) := readCtxt h qidHw .wrb 4
  let c := { c with wrb := wrb }
  if rv < 0 then (h, rv, c)
  else
    let (h, rv, prefetch) := readCtxt h qidHw .pftch 2
    let c := { c with prefetch := prefetch }
    if rv < 0 then (h, rv, c) else (h, 0, c)

/-- `qdma_descq_context_read`. -/
def qdmaDescqContextRead (h : CtxtDev) (qidHw : ℕ) (st c2h : Bool) :
    CtxtDev × ℤ × HwDescqContext :=
  let (h, rv, sw) := readCtxt h qidHw (selSw c2h) 4
  let c : HwDescqContext := { sw := sw }
  if rv < 0 then (h, rv, c)
  else
    let (h, rv, hw) := readCtxt h qidHw (selHw c2h) 2
    let c := { c with hw := hw }
    if rv < 0 then (h, rv, c)
    else
      let (h, rv, cr) := readCtxt h qidHw (selCr c2h) 1
      let c := { c with cr := cr }
      if rv < 0 then (h, rv, c)
      else
        let (h, rv, qid2vec) := readCtxt h qidHw .qid2vec 1
        let c := { c with qid2vec := qid2vec }
        if rv < 0 then (h, rv, c)
        else if st && c2h then readStC2h h qidHw c
        else (h, 0, c)

/-! ## One command -/

theorem selCode_lt (sel : CtxtSel) : selCode sel < 2 ^ 4 := by
  cases sel <;> decide

theorem selCode_inj {sel sel' : CtxtSel} (h : selCode sel = selCode sel') : sel = sel' := by
  revert h
  cases sel <;> cases sel' <;> decide

theorem opCode_lt (op : CmdOp) : op.code < 2 ^ 2 := by
  cases op <;> decide

/-- **Queue, operation and selector do not overlap** in the command word. -/
theorem cmdWord_get {qid op sel : ℕ} (hq : qid < 2048) (hop : op < 2 ^ 2) (hsel : sel < 2 ^ 4) :
    indCtxtCmdQid.get (cmdWord qid op sel) = qid ∧ indCtxtCmdOp.get (cmdWord qid op sel) = op ∧
      indCtxtCmdSel.get (cmdWord qid op sel) = sel := by
  set fs : List (Field × ℕ) := [(indCtxtCmdQid, qid), (indCtxtCmdOp, op), (indCtxtCmdSel, sel)]
    with hfs
  have hfits : Fits fs := by
    rw [hfs]
    unfold Fits
    simp only [List.forall_mem_cons, List.not_mem_nil, false_imp_iff, implies_true, and_true]
    exact ⟨hq, hop, hsel⟩
  have hapart : (fs.map Prod.fst).Pairwise Field.Apart :=
    show [indCtxtCmdQid, indCtxtCmdOp, indCtxtCmdSel].Pairwise Field.Apart by decide
  have hpack : cmdWord qid op sel = pack fs := by
    have hlt : pack fs < 2 ^ 32 := by
      refine pack_lt hfits ?_
      rw [hfs]
      simp only [List.forall_mem_cons, List.not_mem_nil, false_imp_iff, implies_true, and_true]
      decide
    have heq : indCtxtCmdQid.put qid ||| indCtxtCmdOp.put op ||| indCtxtCmdSel.put sel
        = pack fs := by
      rw [hfs]
      unfold pack
      simp only [List.foldl_cons, List.foldl_nil, Nat.zero_or]
    unfold cmdWord
    rw [heq, u32_of_lt hlt]
  rw [hpack]
  exact ⟨get_fields hfits hapart 0 rfl, get_fields hfits hapart 1 rfl, get_fields hfits hapart 2 rfl⟩

/-- The device meets the command meant. -/
theorem command_eq (h : CtxtDev) {qid : ℕ} (hq : qid < 2048) (op : CmdOp) (sel : CtxtSel) :
    h.command (cmdWord qid op.code (selCode sel)) = h.exec op.code (selCode sel, qid) := by
  obtain ⟨h1, h2, h3⟩ := cmdWord_get hq (opCode_lt op) (selCode_lt sel)
  unfold CtxtDev.command
  rw [h1, h2, h3]

/-- Words padded to a whole context. -/
def padded {n : ℕ} (w : Fin n → Word) : Fin 4 → Word := fun i => (List.ofFn w).getD i 0

theorem padded_of_lt {n : ℕ} (w : Fin n → Word) (i : Fin 4) (h : (i : ℕ) < n) :
    padded w i = w ⟨i, h⟩ := by
  have hlt : (i : ℕ) < (List.ofFn w).length := by rwa [List.length_ofFn]
  unfold padded
  rw [List.getD_eq_getElem _ _ hlt, List.getElem_ofFn]

/-- A CLR command. -/
theorem prog_clr (h : CtxtDev) {qid : ℕ} (hq : qid < 2048) (sel : CtxtSel) :
    (hwIndirectCtextProg h qid .clr sel none 0 false).1.cell
        = Function.update h.cell (selCode sel, qid) (fun _ => 0) ∧
      (hwIndirectCtextProg h qid .clr sel none 0 false).2.1 = 1 := by
  have heq : hwIndirectCtextProg h qid .clr sel none 0 false
      = (h.command (cmdWord qid CmdOp.clr.code (selCode sel)), 1, none) := by
    unfold hwIndirectCtextProg
    simp
  rw [heq, command_eq h hq]
  exact ⟨rfl, rfl⟩

/-- A WR command, which is read back and verified. -/
theorem prog_wr (h : CtxtDev) {qid : ℕ} (hq : qid < 2048) (sel : CtxtSel) {n : ℕ} (h0 : 0 < n)
    (h4 : n ≤ 4) (w : Fin n → Word) :
    (hwIndirectCtextProg h qid .wr sel (some (List.ofFn w)) n true).1.cell
        = Function.update h.cell (selCode sel, qid) (padded w) ∧
      (hwIndirectCtextProg h qid .wr sel (some (List.ofFn w)) n true).2.1 = 1 := by
  have hcnt : ¬ (n = 0 ∨ n > qdmaRegIndCtxtRegCount) := by
    unfold qdmaRegIndCtxtRegCount
    omega
  -- the registers before the command
  set h1 : CtxtDev := { h with
    mask := fun _ => 0xFFFFFFFF, data := fun i => if (i : ℕ) < n then (List.ofFn w).getD i 0 else 0 }
    with hh1
  have hdata : h1.data = padded w := by
    funext i
    show (if (i : ℕ) < n then (List.ofFn w).getD i 0 else 0) = (List.ofFn w).getD i 0
    split_ifs with hi
    · rfl
    · rw [List.getD_eq_default]
      rw [List.length_ofFn]
      omega
  -- what it writes
  set h2 := h1.exec CmdOp.wr.code (selCode sel, qid) with hh2
  have hcell : h2.cell = Function.update h.cell (selCode sel, qid) (padded w) := by
    show Function.update h.cell _ (fun i => _) = _
    congr 1
    funext i
    show (h.cell (selCode sel, qid) i &&& ~~~(0xFFFFFFFF : Word)) ||| (h1.data i &&& 0xFFFFFFFF) = _
    rw [hdata]
    have hand : ∀ x y : Word, (x &&& ~~~(0xFFFFFFFF : Word)) ||| (y &&& 0xFFFFFFFF) = y := by
      intro x y
      have hones : (0xFFFFFFFF : Word) = BitVec.allOnes 32 := by decide
      rw [hones, BitVec.not_allOnes, BitVec.and_zero, BitVec.zero_or, BitVec.and_allOnes]
    exact hand _ _
  -- what is read back
  have hread : (h2.exec CmdOp.rd.code (selCode sel, qid)).readData n = List.ofFn w := by
    show (List.ofFn (h2.cell (selCode sel, qid))).take n = _
    rw [hcell, Function.update_self]
    refine List.ext_getElem (by simp [h4]) (fun i hi1 hi2 => ?_)
    have hi : i < n := (List.length_ofFn (f := w)) ▸ hi2
    rw [List.getElem_take, List.getElem_ofFn, List.getElem_ofFn]
    exact padded_of_lt w ⟨i, hi.trans_le h4⟩ hi
  have heq : hwIndirectCtextProg h qid .wr sel (some (List.ofFn w)) n true
      = (h2.exec CmdOp.rd.code (selCode sel, qid), 1, some (List.ofFn w)) := by
    unfold hwIndirectCtextProg
    simp only [true_or, true_and, hcnt, if_false, if_true, reduceCtorEq, Option.getD_some,
      Bool.not_true, Bool.false_eq_true]
    rw [command_eq _ hq .wr sel, command_eq _ hq .rd sel, List.take_of_length_le (by simp),
      ← hh1, ← hh2, hread, if_pos rfl]
  rw [heq]
  exact ⟨hcell, rfl⟩

/-- An RD command. -/
theorem readCtxt_eq (h : CtxtDev) {qid : ℕ} (hq : qid < 2048) (sel : CtxtSel) {n : ℕ} (h0 : 0 < n)
    (h4 : n ≤ 4) :
    (readCtxt h qid sel n).1.cell = h.cell ∧ (readCtxt h qid sel n).2.1 = 1 ∧
      (readCtxt h qid sel n).2.2 = fun i => h.cell (selCode sel, qid) (i.castLE h4) := by
  have hcnt : ¬ (n = 0 ∨ n > qdmaRegIndCtxtRegCount) := by
    unfold qdmaRegIndCtxtRegCount
    omega
  have heq : hwIndirectCtextProg h qid .rd sel (some (List.replicate n 0)) n false
      = (({ h with mask := fun _ => 0xFFFFFFFF } : CtxtDev).exec CmdOp.rd.code (selCode sel, qid), 1,
        some ((List.ofFn (h.cell (selCode sel, qid))).take n)) := by
    unfold hwIndirectCtextProg
    simp only [or_true, true_and, hcnt, if_false, if_true, reduceCtorEq]
    rw [command_eq _ hq .rd sel]
    rfl
  unfold readCtxt
  rw [heq]
  refine ⟨rfl, rfl, ?_⟩
  funext i
  set words := (List.ofFn (h.cell (selCode sel, qid))).take n with hwords
  have hlen : (i : ℕ) < words.length := by
    rw [hwords, List.length_take, List.length_ofFn]
    omega
  show words.getD i 0 = h.cell (selCode sel, qid) (i.castLE h4)
  rw [List.getD_eq_getElem _ _ hlen]
  simp only [hwords, List.getElem_take, List.getElem_ofFn]
  rfl

/-! ## Commands in a row -/

/-- A command as the driver gives it to change a context: one that clears, or one that writes
one to four words. -/
inductive Step.Good : Step → Prop
  | clr (sel : CtxtSel) : Good (clrStep sel)
  | wr (sel : CtxtSel) {n : ℕ} (w : Fin n → Word) (h0 : 0 < n) (h4 : n ≤ 4) : Good (wrStep sel w)

/-- The words it leaves. -/
def Step.words (c : Step) : Fin 4 → Word := fun i => (c.data.getD []).getD i 0

/-- What it makes of the memory. -/
def Step.effect (qid : ℕ) (cell : ℕ × ℕ → Fin 4 → Word) (c : Step) : ℕ × ℕ → Fin 4 → Word :=
  Function.update cell (selCode c.sel, qid) c.words

/-- **Such commands succeed**, each doing its part. -/
theorem progs_spec {qid : ℕ} (hq : qid < 2048) (cs : List Step) (h : CtxtDev)
    (hcs : ∀ c ∈ cs, c.Good) :
    (progs qid cs h).1.cell = cs.foldl (Step.effect qid) h.cell ∧ (progs qid cs h).2 = 0 := by
  induction cs generalizing h with
  | nil => exact ⟨rfl, rfl⟩
  | cons c cs ih =>
      have hone : (hwIndirectCtextProg h qid c.op c.sel c.data c.cnt c.verify).1.cell
            = c.effect qid h.cell ∧
          (hwIndirectCtextProg h qid c.op c.sel c.data c.cnt c.verify).2.1 = 1 := by
        rcases hcs c (.head _) with ⟨sel⟩ | ⟨sel, w, h0, h4⟩
        · exact prog_clr h hq sel
        · exact prog_wr h hq sel h0 h4 w
      have hno : ¬ (1 : ℤ) < 0 := by decide
      rw [progs]
      simp only [hone.2, hno, if_false]
      rw [List.foldl_cons, ← hone.1]
      exact ih _ (fun c' hc' => hcs c' (.tail _ hc'))

/-- A context that no command names. -/
theorem foldl_effect_other {qid : ℕ} (cs : List Step) (cell : ℕ × ℕ → Fin 4 → Word)
    {at_ : ℕ × ℕ} (h : ∀ c ∈ cs, at_ ≠ (selCode c.sel, qid)) :
    cs.foldl (Step.effect qid) cell at_ = cell at_ := by
  induction cs generalizing cell with
  | nil => rfl
  | cons c cs ih =>
      rw [List.foldl_cons, ih _ (fun c' hc' => h c' (.tail _ hc'))]
      exact Function.update_of_ne (h c (.head _)) ..

/-- A context holds what the last command for it wrote. -/
theorem foldl_effect_last {qid : ℕ} {cs a b : List Step} {c : Step} (hcs : cs = a ++ c :: b)
    (cell : ℕ × ℕ → Fin 4 → Word) (h : ∀ c' ∈ b, c.sel ≠ c'.sel) :
    cs.foldl (Step.effect qid) cell (selCode c.sel, qid) = c.words := by
  rw [hcs, List.foldl_append, List.foldl_cons, foldl_effect_other b]
  · exact Function.update_self ..
  · intro c' hc' heq
    exact h c' hc' (selCode_inj (congrArg Prod.fst heq))

/-! ## Programming a queue -/

/-- All commands of `qdma_descq_context_program`. -/
def programSteps (st c2h : Bool) (c : HwDescqContext) : List Step :=
  clearSteps st c2h true ++
    ([wrStep (selSw c2h) c.sw, wrStep .qid2vec c.qid2vec]
      ++ if st && c2h then [wrStep .pftch c.prefetch, wrStep .wrb c.wrb] else [])

theorem clearSteps_good (st c2h : Bool) : ∀ c ∈ clearSteps st c2h true, c.Good := by
  have hmem : ∀ c ∈ clearSteps st c2h true, ∃ sel, c = clrStep sel := by
    unfold clearSteps
    cases st <;> cases c2h <;> simp [clrStep]
  intro c hc
  obtain ⟨sel, rfl⟩ := hmem c hc
  exact .clr sel

theorem programSteps_good (st c2h : Bool) (c : HwDescqContext) :
    ∀ s ∈ programSteps st c2h c, s.Good := by
  intro s hs
  rcases List.mem_append.mp hs with hclr | hwr
  · exact clearSteps_good st c2h s hclr
  · have hmem : s = wrStep (selSw c2h) c.sw ∨ s = wrStep .qid2vec c.qid2vec ∨
        s = wrStep .pftch c.prefetch ∨ s = wrStep .wrb c.wrb := by
      revert hwr
      cases st <;> cases c2h <;> simp <;> tauto
    rcases hmem with rfl | rfl | rfl | rfl
    · exact .wr _ _ (by decide) (by decide)
    · exact .wr _ _ (by decide) (by decide)
    · exact .wr _ _ (by decide) (by decide)
    · exact .wr _ _ (by decide) (by decide)

/-- **Programming succeeds**, and leaves the memory the commands make. -/
theorem contextProgram_spec (h : CtxtDev) {qid : ℕ} (hq : qid < 2048) (st c2h : Bool)
    (c : HwDescqContext) :
    (qdmaDescqContextProgram h qid st c2h c).1.cell
        = (programSteps st c2h c).foldl (Step.effect qid) h.cell ∧
      (qdmaDescqContextProgram h qid st c2h c).2 = 0 := by
  obtain ⟨hclr, hrv⟩ := progs_spec hq (clearSteps st c2h true) h (clearSteps_good st c2h)
  have hwr := programSteps_good st c2h c
  unfold qdmaDescqContextProgram qdmaDescqContextClear
  generalize progs qid (clearSteps st c2h true) h = r at hclr hrv ⊢
  obtain ⟨h1, rv⟩ := r
  simp only at hclr hrv ⊢
  have hno : ¬ (0 : ℤ) < 0 := lt_irrefl 0
  rw [hrv]
  simp only [hno, if_false]
  unfold programSteps at hwr ⊢
  rw [List.foldl_append, ← hclr]
  exact progs_spec hq _ h1 (fun s hs => hwr s (List.mem_append_right _ hs))

/-- The first words of a context in the memory. -/
def firstWords (cell : ℕ × ℕ → Fin 4 → Word) (qid : ℕ) (sel : CtxtSel) {n : ℕ} (h4 : n ≤ 4) :
    Fin n → Word := fun i => cell (selCode sel, qid) (i.castLE h4)

/-- What `qdma_descq_context_read` finds in a memory. -/
def contextIn (cell : ℕ × ℕ → Fin 4 → Word) (qid : ℕ) (st c2h : Bool) : HwDescqContext where
  sw := firstWords cell qid (selSw c2h) (le_refl 4)
  hw := firstWords cell qid (selHw c2h) (by decide)
  cr := firstWords cell qid (selCr c2h) (by decide)
  qid2vec := firstWords cell qid .qid2vec (by decide)
  wrb := if st && c2h then firstWords cell qid .wrb (le_refl 4) else fun _ => 0
  prefetch := if st && c2h then firstWords cell qid .pftch (by decide) else fun _ => 0

/-- **Reading** succeeds and changes no context. -/
theorem contextRead_spec (h : CtxtDev) {qid : ℕ} (hq : qid < 2048) (st c2h : Bool) :
    (qdmaDescqContextRead h qid st c2h).1.cell = h.cell ∧
      (qdmaDescqContextRead h qid st c2h).2 = (0, contextIn h.cell qid st c2h) := by
  have hno : ¬ (1 : ℤ) < 0 := by decide
  -- one command after the other
  have hread : ∀ (h' : CtxtDev) (sel : CtxtSel) {n : ℕ} (h0 : 0 < n) (h4 : n ≤ 4),
      h'.cell = h.cell → ∃ h'', readCtxt h' qid sel n = (h'', 1, firstWords h.cell qid sel h4) ∧
        h''.cell = h.cell := by
    intro h' sel n h0 h4 hcell
    obtain ⟨h1, h2, h3⟩ := readCtxt_eq h' hq sel h0 h4
    refine ⟨_, Prod.ext rfl (Prod.ext h2 ?_), h1.trans hcell⟩
    rw [h3, hcell]
    rfl
  obtain ⟨g1, hsw, hc1⟩ := hread h (selSw c2h) (by decide) (le_refl 4) rfl
  obtain ⟨g2, hhw, hc2⟩ := hread g1 (selHw c2h) (n := 2) (by decide) (by decide) hc1
  obtain ⟨g3, hcr, hc3⟩ := hread g2 (selCr c2h) (n := 1) (by decide) (by decide) hc2
  obtain ⟨g4, hqv, hc4⟩ := hread g3 .qid2vec (n := 1) (by decide) (by decide) hc3
  unfold qdmaDescqContextRead contextIn
  simp only [hsw, hhw, hcr, hqv, hno, if_false]
  cases hkind : st && c2h with
  | false =>
      simp only [Bool.false_eq_true, if_false]
      exact ⟨hc4, trivial⟩
  | true =>
      obtain ⟨g5, hwrb, hc5⟩ := hread g4 .wrb (by decide) (le_refl 4) hc4
      obtain ⟨g6, hpf, hc6⟩ := hread g5 .pftch (n := 2) (by decide) (by decide) hc5
      unfold readStC2h
      simp only [hwrb, hpf, hno, if_false, if_true]
      exact ⟨hc6, trivial⟩

/-- The first words a WR command leaves are those it is given. -/
theorem wrStep_words {n : ℕ} (sel : CtxtSel) (w : Fin n → Word) (h4 : n ≤ 4) :
    (fun i => (wrStep sel w).words (Fin.castLE h4 i)) = w := by
  funext i
  exact padded_of_lt w (i.castLE h4) i.isLt

/-- The contexts of a queue in a memory that has been programmed. -/
theorem contextIn_program (cell : ℕ × ℕ → Fin 4 → Word) (qid : ℕ) (st c2h : Bool)
    (c : HwDescqContext) :
    contextIn ((programSteps st c2h c).foldl (Step.effect qid) cell) qid st c2h
      = { sw := c.sw, qid2vec := c.qid2vec
          prefetch := if st && c2h then c.prefetch else fun _ => 0
          wrb := if st && c2h then c.wrb else fun _ => 0 } := by
  set cs := programSteps st c2h c with hcs
  -- each context is left by the last command for it
  have hlast : ∀ (a b : List Step) (s : Step), cs = a ++ s :: b → (∀ s' ∈ b, s.sel ≠ s'.sel) →
      cs.foldl (Step.effect qid) cell (selCode s.sel, qid) = s.words :=
    fun a b s heq hb => foldl_effect_last heq cell hb
  have hsw : cs.foldl (Step.effect qid) cell (selCode (selSw c2h), qid)
      = (wrStep (selSw c2h) c.sw).words := by
    refine hlast (clearSteps st c2h true) (wrStep .qid2vec c.qid2vec ::
      if st && c2h then [wrStep .pftch c.prefetch, wrStep .wrb c.wrb] else []) _ rfl ?_
    cases st <;> cases c2h <;> simp [wrStep, selSw]
  have hqv : cs.foldl (Step.effect qid) cell (selCode .qid2vec, qid)
      = (wrStep .qid2vec c.qid2vec).words := by
    refine hlast (clearSteps st c2h true ++ [wrStep (selSw c2h) c.sw])
      (if st && c2h then [wrStep .pftch c.prefetch, wrStep .wrb c.wrb] else [])
      (wrStep .qid2vec c.qid2vec) ?_ ?_
    · rw [List.append_assoc]
      rfl
    · cases st <;> cases c2h <;> simp [wrStep]
  have hhw : cs.foldl (Step.effect qid) cell (selCode (selHw c2h), qid)
      = (clrStep (selHw c2h)).words := by
    refine hlast [clrStep (selSw c2h)] _ (clrStep (selHw c2h)) rfl ?_
    cases st <;> cases c2h <;> simp [wrStep, clrStep, selSw, selHw, selCr]
  have hcr : cs.foldl (Step.effect qid) cell (selCode (selCr c2h), qid)
      = (clrStep (selCr c2h)).words := by
    refine hlast [clrStep (selSw c2h), clrStep (selHw c2h)] _ (clrStep (selCr c2h)) rfl ?_
    cases st <;> cases c2h <;> simp [wrStep, clrStep, selSw, selCr]
  unfold contextIn firstWords
  rw [hsw, hqv, hhw, hcr, wrStep_words, wrStep_words]
  cases hkind : st && c2h with
  | false => rfl
  | true =>
      have hpf : cs.foldl (Step.effect qid) cell (selCode .pftch, qid)
          = (wrStep .pftch c.prefetch).words := by
        refine hlast (clearSteps st c2h true ++ [wrStep (selSw c2h) c.sw,
          wrStep .qid2vec c.qid2vec]) [wrStep .wrb c.wrb] (wrStep .pftch c.prefetch) ?_
          (by simp [wrStep])
        rw [hcs, programSteps, hkind, List.append_assoc]
        rfl
      have hwrb : cs.foldl (Step.effect qid) cell (selCode .wrb, qid)
          = (wrStep .wrb c.wrb).words := by
        refine hlast (clearSteps st c2h true ++ [wrStep (selSw c2h) c.sw,
          wrStep .qid2vec c.qid2vec, wrStep .pftch c.prefetch]) [] (wrStep .wrb c.wrb) ?_ (by simp)
        rw [hcs, programSteps, hkind, List.append_assoc]
        rfl
      rw [hpf, hwrb, wrStep_words]
      simp only [if_true]
      rw [wrStep_words]
      rfl

/-- The commands name no SW, HW or credit context of the other direction. -/
theorem programSteps_sel (st c2h : Bool) (c : HwDescqContext) :
    ∀ sel ∈ [selSw (!c2h), selHw (!c2h), selCr (!c2h)],
      sel ∉ (programSteps st c2h c).map Step.sel := by
  have hsel : (programSteps st c2h c).map Step.sel = (programSteps st c2h {}).map Step.sel := by
    cases st <;> cases c2h <;> rfl
  rw [hsel]
  clear hsel
  revert st c2h
  decide

/-- **What is programmed is read back**: for every queue of the device, the programming succeeds
and verifies, the contexts read are those programmed, with the others zero, and no context of
another queue changes, nor the SW, HW or credit context of the other direction. -/
theorem context_program_read (h : CtxtDev) {qid : ℕ} (hq : qid < 2048) (st c2h : Bool)
    (c : HwDescqContext) :
    (qdmaDescqContextProgram h qid st c2h c).2 = 0 ∧
      (qdmaDescqContextRead (qdmaDescqContextProgram h qid st c2h c).1 qid st c2h).2
        = (0, { sw := c.sw, qid2vec := c.qid2vec
                prefetch := if st && c2h then c.prefetch else fun _ => 0
                wrb := if st && c2h then c.wrb else fun _ => 0 }) ∧
      (∀ sel qid', qid' ≠ qid →
        (qdmaDescqContextRead (qdmaDescqContextProgram h qid st c2h c).1 qid st c2h).1.cell
          (sel, qid') = h.cell (sel, qid')) ∧
      ∀ sel ∈ [selSw (!c2h), selHw (!c2h), selCr (!c2h)],
        (qdmaDescqContextRead (qdmaDescqContextProgram h qid st c2h c).1 qid st c2h).1.cell
          (selCode sel, qid) = h.cell (selCode sel, qid) := by
  obtain ⟨hcell, hrv⟩ := contextProgram_spec h hq st c2h c
  generalize qdmaDescqContextProgram h qid st c2h c = r at hcell hrv ⊢
  obtain ⟨h1, rv⟩ := r
  simp only at hcell hrv ⊢
  obtain ⟨hread, hres⟩ := contextRead_spec h1 hq st c2h
  refine ⟨hrv, ?_, fun sel qid' hne => ?_, fun sel hsel => ?_⟩
  · rw [hres, hcell, contextIn_program]
  · rw [hread, hcell]
    refine foldl_effect_other _ _ (fun s _ heq => ?_)
    exact hne (congrArg Prod.snd heq)
  · rw [hread, hcell]
    refine foldl_effect_other _ _ (fun s hs heq => ?_)
    have hsame : sel = s.sel := selCode_inj (congrArg Prod.fst heq)
    rw [hsame] at hsel
    exact programSteps_sel st c2h c _ hsel (List.mem_map_of_mem hs)

/-! ## The model without registers -/

/-- The memory is that of a PF in the mailbox handler's model. -/
def Abs (h : CtxtDev) (d : PfDev) : Prop :=
  ∀ sel qid (i : Fin 4), d.ctxt sel qid i = (h.cell (selCode sel, qid) i).toNat

/-- The command there. -/
def Step.cmd (c : Step) : CtxtCmd :=
  match c.data with
  | none => .clr
  | some w => .wr (w.map BitVec.toNat)

/-- **The registers refine that model**, where the device answers without failure. -/
theorem hwIndirectCtextProg_refines {h : CtxtDev} {d : PfDev} (habs : Abs h d) {qid : ℕ}
    (hq : qid < 2048) {c : Step} (hc : c.Good) (hans : d.cmdAns d.cmds = .ok) :
    Abs (hwIndirectCtextProg h qid c.op c.sel c.data c.cnt c.verify).1
        (Qdma.hwIndirectCtextProg d qid c.cmd c.sel c.verify).1 ∧
      (hwIndirectCtextProg h qid c.op c.sel c.data c.cnt c.verify).2.1
        = (Qdma.hwIndirectCtextProg d qid c.cmd c.sel c.verify).2 := by
  have hcell : (hwIndirectCtextProg h qid c.op c.sel c.data c.cnt c.verify).1.cell
        = c.effect qid h.cell ∧
      (hwIndirectCtextProg h qid c.op c.sel c.data c.cnt c.verify).2.1 = 1 := by
    rcases hc with ⟨sel⟩ | ⟨sel, w, h0, h4⟩
    · exact prog_clr h hq sel
    · exact prog_wr h hq sel h0 h4 w
  have hmodel : (Qdma.hwIndirectCtextProg d qid c.cmd c.sel c.verify)
      = (({ d with cmds := d.cmds + 1 } : PfDev).setCtxt c.sel qid
          (fun i => ((c.data.getD []).map BitVec.toNat).getD i 0), 1) := by
    unfold Qdma.hwIndirectCtextProg Step.cmd
    rw [hans]
    rcases hc with ⟨sel⟩ | ⟨sel, w, -, -⟩
    · rfl
    · rfl
  rw [hmodel]
  refine ⟨fun sel qid' i => ?_, hcell.2⟩
  rw [hcell.1]
  unfold PfDev.setCtxt Step.effect
  rw [hwQid_of_lt hq]
  simp only
  by_cases hs : sel = c.sel
  · by_cases hqid : qid' = qid
    · rw [hs, hqid, Function.update_self, Function.update_self, Function.update_self]
      unfold Step.words
      exact List.getD_map (f := BitVec.toNat) (d := (0 : Word)) ..
    · have hkey : (selCode sel, qid') ≠ (selCode c.sel, qid) :=
        fun heq => hqid (congrArg Prod.snd heq)
      rw [Function.update_of_ne hkey, hs, Function.update_self, Function.update_of_ne hqid]
      exact habs c.sel qid' i
  · have hkey : (selCode sel, qid') ≠ (selCode c.sel, qid) :=
      fun heq => hs (selCode_inj (congrArg Prod.fst heq))
    rw [Function.update_of_ne hkey, Function.update_of_ne hs]
    exact habs sel qid' i

/-- The contexts of queue 2047, ST C2H: no word of them is zero. -/
def lastContexts : HwDescqContext where
  sw i := BitVec.ofNat 32 (10 + i)
  qid2vec _ := 0x3FFFF
  prefetch i := BitVec.ofNat 32 (20 + i)
  wrb i := BitVec.ofNat 32 (30 + i)

theorem context_program_read_last :
    (qdmaDescqContextRead
      (qdmaDescqContextProgram ⟨fun _ => 0, fun _ => 0, fun _ _ => 7⟩ 2047 true true
        lastContexts).1 2047 true true).2 = (0, lastContexts) :=
  (context_program_read _ (by decide) true true lastContexts).2.1

end Qdma.Reg
