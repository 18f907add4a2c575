/-
# The context of a queue pair

The two queues of a pair share one context, `QID2VEC`: a word with the interrupt vector of each
direction and a bit that says whether it is an aggregation ring.  Setting up one queue rewrites
the whole word.

`shared_context_kept` says when both directions keep what they were set up with: on a PF, a
queue without aggregation must not follow one with aggregation, since the bit is set only; and
a VF, which sends the word zeroed, loses all.
-/
import Qdma.Contexts
import Qdma.CtxtFrame
import Qdma.Exec
import Qdma.IntrAgg

namespace Qdma

open BitField Exec

/-! ## The word -/

/-- `C2H_QID2VEC_MAP_QID_C2H_VEC` and `C2H_QID2VEC_MAP_QID_H2C_VEC`. -/
def vecField (c2h : Bool) : Field := if c2h then ⟨0, 8⟩ else ⟨9, 8⟩

/-- `C2H_QID2VEC_MAP_QID_C2H_COALEN` and `C2H_QID2VEC_MAP_QID_H2C_COALEN`. -/
def coalField (c2h : Bool) : Field := if c2h then ⟨8, 1⟩ else ⟨17, 1⟩

/-- What `make_qid2vec_context` reads of the device. -/
structure VecEnv extends CtxtEnv where
  intrCoalEn : Bool
  dvecStartIdx : ℕ

/-- `get_intr_ring_index`. -/
def getIntrRingIndex (e : VecEnv) (vectorIndex : ℕ) : ℕ :=
  u32 (u32Sub vectorIndex e.dvecStartIdx + e.funcId * qdmaDataVecPerPfMax)

/-- What the configuration asks for: vector or ring, and the bit. -/
def askedVec (q : Descq) (e : VecEnv) : ℕ × ℕ :=
  if e.intrCoalEn then (getIntrRingIndex e q.intrId, 1) else (q.intrId, 0)

/-- The word `make_qid2vec_context` makes of the one it has read. -/
def qid2vecWord (data : ℕ) (q : Descq) (e : VecEnv) : ℕ :=
  let data := (vecField q.conf.c2h).clear data
  if e.intrCoalEn then
    data ||| (coalField q.conf.c2h).put 1 |||
      (vecField q.conf.c2h).put (getIntrRingIndex e q.intrId)
  else data ||| (vecField q.conf.c2h).put q.intrId

/-- `make_qid2vec_context`: the word, which stays 0 if it cannot be read. -/
def makeQid2vecContext (d : PfDev) (qid : ℕ) (q : Descq) (e : VecEnv) : PfDev × ℕ :=
  let (d, rv) := hwIndirectCtextProg d qid .rd .qid2vec false
  if rv < 0 then (d, 0) else (d, qid2vecWord (d.ctxt .qid2vec (hwQid qid) 0) q e)

/-! ## Setting a queue up -/

/-- The contexts of a queue, but for `QID2VEC`. -/
def descqContexts (q : Descq) (e : CtxtEnv) : HwDescqContext :=
  if q.conf.st && q.conf.c2h then
    { sw := makeSwContext q e, prefetch := makePrefetchContext q, wrb := makeWrbContext q e }
  else { sw := makeSwContext q e }

/-- `qdma_descq_context_setup` of a PF. -/
def qdmaDescqContextSetup (d : PfDev) (qid : ℕ) (q : Descq) (e : VecEnv) : PfDev × ℤ :=
  let (d, rv) := qdmaDescqContextClearHw d qid q.conf.st q.conf.c2h true
  if rv < 0 then (d, rv)
  else
    let (d, word) := makeQid2vecContext d qid q e
    qdmaDescqContextProgram d qid q.conf.st q.conf.c2h
      { descqContexts q e.toCtxtEnv with qid2vec := [word] }

/-- The message of `qdma_descq_context_setup` of a VF. -/
def vfSetupMsg (qid : ℕ) (q : Descq) (e : CtxtEnv) : MboxMsg :=
  { op := .qctxtWrt, wait := true, src := e.funcId
    qctxt := { qid := qid, st := q.conf.st, c2h := q.conf.c2h, context := descqContexts q e } }

/-- What the PF makes of it. -/
def vfDescqContextSetup (d : PfDev) (qid : ℕ) (q : Descq) (e : CtxtEnv) : PfDev × ℤ :=
  let r := pfProcOp d (vfSetupMsg qid q e)
  (r.1, r.2.2.1)

/-! ## What becomes of the word -/

/-- Clearing the contexts of a queue leaves `QID2VEC` alone. -/
theorem contextClear_qid2vec (d : PfDev) (qid : ℕ) (st c2h clr : Bool) :
    SameCtxt .qid2vec (hwQid qid) d (qdmaDescqContextClearHw d qid st c2h clr).1 := by
  refine ctextProgs_same _ _ _ d (.inl ?_)
  cases st <;> cases c2h <;> cases clr <;> decide

/-- **Programming** writes the word it is given, or nothing if it fails before. -/
theorem contextProgram_qid2vec (d : PfDev) (qid : ℕ) (st c2h : Bool) (c : HwDescqContext) :
    (SameCtxt .qid2vec (hwQid qid) d (qdmaDescqContextProgram d qid st c2h c).1 ∧
        (qdmaDescqContextProgram d qid st c2h c).2 < 0) ∨
      (qdmaDescqContextProgram d qid st c2h c).1.ctxt .qid2vec (hwQid qid)
        = fun i => c.qid2vec.getD i 0 := by
  have hclr := contextClear_qid2vec d qid st c2h true
  unfold qdmaDescqContextProgram
  simp only
  generalize qdmaDescqContextClearHw d qid st c2h true = r at hclr ⊢
  obtain ⟨d1, rv⟩ := r
  simp only at hclr ⊢
  by_cases hneg : rv < 0
  · rw [if_pos hneg]
    exact .inl ⟨hclr, hneg⟩
  rw [if_neg hneg]
  have hwr := ctextProgs_write qid [(.wr c.sw, if c2h then .swC2h else .swH2c, true)]
    (if st && c2h then [(.wr c.prefetch, .pftch, true), (.wr c.wrb, .wrb, true)] else [])
    c.qid2vec .qid2vec true d1 (by cases c2h <;> simp) (by cases st <;> cases c2h <;> simp)
  rcases hwr with ⟨hsame, hneg'⟩ | hnew
  · exact .inl ⟨hclr.trans hsame, hneg'⟩
  · exact .inr hnew

/-- The number of commands that clear the contexts. -/
def clearCmds (st c2h : Bool) : ℕ := if st && c2h then 5 else 3

/-- `make_qid2vec_context` cannot read the word: its RD command, which follows those that
clear the contexts, stays busy. -/
def ReadBusy (d : PfDev) (q : Descq) : Prop :=
  d.cmdAns (d.cmds + clearCmds q.conf.st q.conf.c2h) = .busy

theorem contextClear_cmds (d : PfDev) (qid : ℕ) (st c2h clr : Bool) :
    (qdmaDescqContextClearHw d qid st c2h clr).1.cmdAns = d.cmdAns ∧
      (¬ (qdmaDescqContextClearHw d qid st c2h clr).2 < 0 →
        (qdmaDescqContextClearHw d qid st c2h clr).1.cmds = d.cmds + clearCmds st c2h) := by
  obtain ⟨h1, h2⟩ := ctextProgs_cmds qid
    ([(if clr then .clr else .inv, if c2h then .swC2h else .swH2c, false),
      (.clr, if c2h then .hwC2h else .hwH2c, false),
      (.clr, if c2h then .crC2h else .crH2c, false)]
      ++ if st && c2h then [(.clr, .pftch, false), (.clr, .wrb, false)] else []) d
  refine ⟨h1, fun hrv => (h2 hrv).trans ?_⟩
  unfold clearCmds
  cases st <;> cases c2h <;> rfl

/-- **A setup on a PF** rewrites the word, or leaves it if it fails. -/
theorem pfSetup_word {d : PfDev} {qid : ℕ} {q : Descq} {e : VecEnv} (hread : ¬ ReadBusy d q) :
    ((qdmaDescqContextSetup d qid q e).1.ctxt .qid2vec (hwQid qid) 0 = d.ctxt .qid2vec (hwQid qid) 0 ∧
        (qdmaDescqContextSetup d qid q e).2 ≠ 0) ∨
      (qdmaDescqContextSetup d qid q e).1.ctxt .qid2vec (hwQid qid) 0
        = qid2vecWord (d.ctxt .qid2vec (hwQid qid) 0) q e := by
  have hclr := contextClear_qid2vec d qid q.conf.st q.conf.c2h true
  obtain ⟨hans, hcmds⟩ := contextClear_cmds d qid q.conf.st q.conf.c2h true
  unfold qdmaDescqContextSetup
  simp only
  generalize qdmaDescqContextClearHw d qid q.conf.st q.conf.c2h true = r at hclr hans hcmds ⊢
  obtain ⟨d1, rv⟩ := r
  simp only at hclr hans hcmds ⊢
  by_cases hneg : rv < 0
  · rw [if_pos hneg]
    exact .inl ⟨congrFun hclr 0, hneg.ne⟩
  rw [if_neg hneg]
  -- the word is read
  have hnot : d1.cmdAns d1.cmds ≠ .busy := by
    rw [hans, hcmds hneg]
    exact hread
  have hrd : hwIndirectCtextProg d1 qid .rd .qid2vec false
      = ({ d1 with cmds := d1.cmds + 1 }, 1) := by
    unfold hwIndirectCtextProg
    cases hc : d1.cmdAns d1.cmds with
    | busy => exact absurd hc hnot
    | _ => rfl
  have hmake : makeQid2vecContext d1 qid q e
      = ({ d1 with cmds := d1.cmds + 1 }, qid2vecWord (d.ctxt .qid2vec (hwQid qid) 0) q e) := by
    unfold makeQid2vecContext
    rw [hrd]
    show (_, qid2vecWord (d1.ctxt .qid2vec (hwQid qid) 0) q e) = _
    rw [congrFun hclr 0]
  rw [hmake]
  rcases contextProgram_qid2vec { d1 with cmds := d1.cmds + 1 } qid q.conf.st q.conf.c2h
      { descqContexts q e.toCtxtEnv with qid2vec := [qid2vecWord (d.ctxt .qid2vec (hwQid qid) 0) q e] }
      with ⟨hsame, hneg'⟩ | hnew
  · exact .inl ⟨(congrFun hsame 0).trans (congrFun hclr 0), hneg'.ne⟩
  · exact .inr (congrFun hnew 0)

/-- **A setup on a VF** zeroes the word, or leaves it if it fails. -/
theorem vfSetup_word (d : PfDev) (qid : ℕ) (q : Descq) (e : CtxtEnv) :
    ((vfDescqContextSetup d qid q e).1.ctxt .qid2vec (hwQid qid) 0 = d.ctxt .qid2vec (hwQid qid) 0 ∧
        (vfDescqContextSetup d qid q e).2 ≠ 0) ∨
      (vfDescqContextSetup d qid q e).1.ctxt .qid2vec (hwQid qid) 0 = 0 := by
  have hctx : (descqContexts q e).qid2vec = [0] := by
    unfold descqContexts
    split_ifs <;> rfl
  show (((pfQctxtWrt d (vfSetupMsg qid q e).qctxt).1.ctxt .qid2vec (hwQid qid) 0 = _ ∧
    (pfQctxtWrt d (vfSetupMsg qid q e).qctxt).2 ≠ 0)) ∨
    (pfQctxtWrt d (vfSetupMsg qid q e).qctxt).1.ctxt .qid2vec (hwQid qid) 0 = 0
  have hclr := contextClear_qid2vec d qid q.conf.st q.conf.c2h true
  unfold pfQctxtWrt vfSetupMsg
  simp only
  generalize qdmaDescqContextClearHw d qid q.conf.st q.conf.c2h true = r at hclr ⊢
  obtain ⟨d1, rv⟩ := r
  simp only at hclr ⊢
  by_cases hneg : rv < 0
  · rw [if_pos hneg]
    exact .inl ⟨congrFun hclr 0, hneg.ne⟩
  rw [if_neg hneg]
  rcases contextProgram_qid2vec d1 qid q.conf.st q.conf.c2h (descqContexts q e)
      with ⟨hsame, hneg'⟩ | hnew
  · exact .inl ⟨(congrFun hsame 0).trans (congrFun hclr 0), hneg'.ne⟩
  · rw [hctx] at hnew
    exact .inr (congrFun hnew 0)

/-! ## The two directions -/

/-- Vector and bit of a direction. -/
def vecPart (c2h : Bool) (w : ℕ) : ℕ × ℕ := ((vecField c2h).get w, (coalField c2h).get w)

theorem vecFields_apart (c2h : Bool) : (vecField c2h).Apart (coalField c2h) ∧
    (vecField c2h).Apart (vecField (!c2h)) ∧ (vecField c2h).Apart (coalField (!c2h)) ∧
    (coalField c2h).Apart (vecField (!c2h)) ∧ (coalField c2h).Apart (coalField (!c2h)) := by
  cases c2h <;> decide

theorem vecFields_fit (c2h : Bool) : (vecField c2h).shift + (vecField c2h).width ≤ 32 ∧
    (coalField c2h).shift + (coalField c2h).width ≤ 32 ∧ (vecField c2h).width = 8 ∧
    (coalField c2h).width = 1 := by
  cases c2h <;> decide

/-- A queue whose vector is one of the at most `XDEV_NUM_IRQ_MAX` of its function, and with
aggregation the first for data, as `desc_alloc_irq` chooses it. -/
structure VecValid (q : Descq) (e : VecEnv) : Prop where
  funcId : e.funcId < 2 ^ 8
  intrId : q.intrId < 8
  coal : e.intrCoalEn = true → q.intrId = e.dvecStartIdx

theorem VecValid.fits {q : Descq} {e : VecEnv} (h : VecValid q e) :
    (askedVec q e).1 < 2 ^ 8 := by
  have hf := h.funcId
  have hi := h.intrId
  unfold askedVec
  cases hc : e.intrCoalEn with
  | false =>
      show q.intrId < 2 ^ 8
      omega
  | true =>
      have hring : getIntrRingIndex e q.intrId = e.funcId := by
        have hd := h.coal hc
        unfold getIntrRingIndex qdmaDataVecPerPfMax u32 u32Sub
        omega
      show getIntrRingIndex e q.intrId < 2 ^ 8
      rw [hring]
      exact hf

/-- The word in terms of the field replaced. -/
theorem qid2vecWord_eq (w : ℕ) (q : Descq) (e : VecEnv) :
    qid2vecWord w q e =
      if e.intrCoalEn then
        (vecField q.conf.c2h).set w (askedVec q e).1 ||| (coalField q.conf.c2h).put 1
      else (vecField q.conf.c2h).set w (askedVec q e).1 := by
  unfold qid2vecWord askedVec Field.set
  cases e.intrCoalEn with
  | false => rfl
  | true =>
      simp only [if_true]
      rw [Nat.or_assoc, Nat.or_comm ((coalField _).put 1), ← Nat.or_assoc]

/-- **The other direction is left alone.** -/
theorem qid2vecWord_other {q : Descq} {e : VecEnv} (h : VecValid q e) (w : ℕ) :
    vecPart (!q.conf.c2h) (qid2vecWord w q e) = vecPart (!q.conf.c2h) w := by
  obtain ⟨-, hvv, hvc, hcv, hcc⟩ := vecFields_apart q.conf.c2h
  obtain ⟨hr1, hr2, -, -⟩ := vecFields_fit (!q.conf.c2h)
  obtain ⟨-, -, hw, hw1⟩ := vecFields_fit q.conf.c2h
  have hv : (askedVec q e).1 < 2 ^ (vecField q.conf.c2h).width := by
    rw [hw]
    exact h.fits
  have hone : 1 < 2 ^ (coalField q.conf.c2h).width := by
    rw [hw1]
    decide
  have hset : vecPart (!q.conf.c2h) ((vecField q.conf.c2h).set w (askedVec q e).1)
      = vecPart (!q.conf.c2h) w :=
    Prod.ext (Field.get_set_apart hv hvv hr1 w) (Field.get_set_apart hv hvc hr2 w)
  rw [qid2vecWord_eq]
  split_ifs
  · rw [← hset]
    exact Prod.ext (Field.get_put_apart hone hcv _) (Field.get_put_apart hone hcc _)
  · exact hset

/-- **The own direction** gets what is asked for, unless its bit was set and is not to be. -/
theorem qid2vecWord_own {q : Descq} {e : VecEnv} (h : VecValid q e) {w : ℕ}
    (hbit : e.intrCoalEn = true ∨ (coalField q.conf.c2h).get w = 0) :
    vecPart q.conf.c2h (qid2vecWord w q e) = askedVec q e := by
  obtain ⟨hvc, -, -, -, -⟩ := vecFields_apart q.conf.c2h
  obtain ⟨hr1, hr2, hw, hw1⟩ := vecFields_fit q.conf.c2h
  have hv : (askedVec q e).1 < 2 ^ (vecField q.conf.c2h).width := by
    rw [hw]
    exact h.fits
  have hone : 1 < 2 ^ (coalField q.conf.c2h).width := by
    rw [hw1]
    decide
  have hset := Field.get_set hv hr1 w
  rw [qid2vecWord_eq]
  cases hc : e.intrCoalEn with
  | true =>
      simp only [if_true]
      refine Prod.ext ((Field.get_put_apart hone (Or.symm hvc) _).trans hset) ?_
      have hask : (askedVec q e).2 = 1 := by
        unfold askedVec
        rw [hc]
        rfl
      rw [hask]
      exact Field.get_put_one hw1 _
  | false =>
      simp only [Bool.false_eq_true, if_false]
      rw [hc] at hbit
      refine Prod.ext hset ?_
      have hask : (askedVec q e).2 = 0 := by
        unfold askedVec
        rw [hc]
        rfl
      rw [hask]
      exact (Field.get_set_apart hv hvc hr2 w).trans (hbit.resolve_left (by decide))

/-! ## Starting and stopping a pair -/

/-- A queue pair of a PF or a VF: its number in the hardware, the PF with the context memory,
and for each direction what its last setup wrote (before the first, what stood there). -/
structure QueuePair where
  vf : Bool
  qid : ℕ
  dev : PfDev
  wrote : Bool → ℕ × ℕ

/-- The word of the pair. -/
def QueuePair.word (s : QueuePair) : ℕ := s.dev.ctxt .qid2vec (hwQid s.qid) 0

/-- A setup of one direction, or what else happens to its contexts: they are cleared. -/
inductive PairOp where
  | setup (q : Descq) (e : VecEnv)
  | clear (st c2h clr : Bool)

/-- `qdma_descq_context_setup`. -/
def QueuePair.setup (s : QueuePair) (q : Descq) (e : VecEnv) : PfDev × ℤ :=
  if s.vf then vfDescqContextSetup s.dev s.qid q e.toCtxtEnv
  else qdmaDescqContextSetup s.dev s.qid q e

/-- One step of the pair.  A setup that fails may have written the word or not. -/
def QueuePair.step (s : QueuePair) : PairOp → QueuePair
  | .setup q e =>
      let (d, rv) := s.setup q e
      { s with
        dev := d
        wrote := Function.update s.wrote q.conf.c2h
          (if rv = 0 then askedVec q e else vecPart q.conf.c2h (d.ctxt .qid2vec (hwQid s.qid) 0)) }
  | .clear st c2h clr => { s with dev := (qdmaDescqContextClearHw s.dev s.qid st c2h clr).1 }

/-- **The setups that keep the word**: on a PF the device answers the RD command, and the
queue uses aggregation or has its bit clear; on a VF there is nothing to keep and nothing to
write. -/
def PairOk (s : QueuePair) : PairOp → Prop
  | .setup q e => VecValid q e ∧
      if s.vf then vecPart (!q.conf.c2h) s.word = (0, 0) ∧ askedVec q e = (0, 0)
      else ¬ ReadBusy s.dev q ∧
        (e.intrCoalEn = true ∨ (coalField q.conf.c2h).get s.word = 0)
  | .clear _ _ _ => True

/-- Each direction has what its last setup wrote. -/
def PairKept (s : QueuePair) : Prop := ∀ c2h, vecPart c2h s.word = s.wrote c2h

/-- **One step** of a pair. -/
theorem PairKept.step {s : QueuePair} (h : PairKept s) {op : PairOp} (hok : PairOk s op) :
    PairKept (s.step op) := by
  cases op with
  | clear st c2h clr =>
      intro dir
      have hsame := contextClear_qid2vec s.dev s.qid st c2h clr
      show vecPart dir ((qdmaDescqContextClearHw s.dev s.qid st c2h clr).1.ctxt .qid2vec (hwQid s.qid) 0)
        = s.wrote dir
      rw [congrFun hsame 0]
      exact h dir
  | setup q e =>
      obtain ⟨hvalid, hcase⟩ := hok
      -- the word afterwards: as before, or as asked with the other direction left alone
      have hword : ((s.setup q e).1.ctxt .qid2vec (hwQid s.qid) 0 = s.word ∧ (s.setup q e).2 ≠ 0) ∨
          (vecPart q.conf.c2h ((s.setup q e).1.ctxt .qid2vec (hwQid s.qid) 0) = askedVec q e ∧
            vecPart (!q.conf.c2h) ((s.setup q e).1.ctxt .qid2vec (hwQid s.qid) 0)
              = vecPart (!q.conf.c2h) s.word) := by
        unfold QueuePair.setup
        cases hvf : s.vf with
        | true =>
            rw [hvf] at hcase
            obtain ⟨hother, hown⟩ := hcase
            refine (vfSetup_word s.dev s.qid q e.toCtxtEnv).imp_right (fun hzero => ?_)
            simp only [if_true]
            rw [hzero, hown, hother]
            exact ⟨by cases q.conf.c2h <;> rfl, by cases q.conf.c2h <;> rfl⟩
        | false =>
            rw [hvf] at hcase
            obtain ⟨hread, hbit⟩ := hcase
            refine (pfSetup_word hread).imp_right (fun hnew => ?_)
            simp only [Bool.false_eq_true, if_false]
            rw [hnew]
            exact ⟨qid2vecWord_own hvalid hbit, qid2vecWord_other hvalid _⟩
      intro dir
      show vecPart dir ((s.setup q e).1.ctxt .qid2vec (hwQid s.qid) 0)
        = Function.update s.wrote q.conf.c2h _ dir
      by_cases hdir : dir = q.conf.c2h
      · subst hdir
        rw [Function.update_self]
        split_ifs with hrv
        · rcases hword with ⟨-, hne⟩ | ⟨hown, -⟩
          · exact absurd hrv hne
          · exact hown
        · rfl
      · rw [Function.update_of_ne hdir, ← h dir]
        have hother : dir = !q.conf.c2h := by
          revert hdir
          cases dir <;> cases q.conf.c2h <;> decide
        rw [hother]
        rcases hword with ⟨hsame, -⟩ | ⟨-, hkept⟩
        · rw [hsame]
        · exact hkept

/-- **The shared context keeps both directions**, in every run of such steps. -/
theorem shared_context_kept {s₀ s : QueuePair} {ops : List PairOp} (h0 : PairKept s₀)
    (hr : Run QueuePair.step PairOk s₀ ops s) : PairKept s :=
  hr.invariant h0 (fun _ _ h hok => h.step hok)

/-- A pair whose word holds `w`. -/
def pairWith (vf : Bool) (w : ℕ) : QueuePair where
  vf := vf
  qid := 5
  dev := { ctxt := fun _ _ _ => w }
  wrote := fun c2h => vecPart c2h w

/-- A queue with vector `intrId`, and a device with aggregation or without. -/
def vecQueue (c2h : Bool) (intrId : ℕ) : Descq := { conf := { c2h := c2h }, intrId := intrId }

@[inherit_doc vecQueue]
def vecEnv (intrCoalEn : Bool) : VecEnv :=
  { funcId := 1, descBus := 4096, intrCoalEn := intrCoalEn, dvecStartIdx := 1 }

/-- Both directions of a pair of a PF are set up. -/
theorem shared_context_kept_pf : PairKept
    (((pairWith false 0).step (.setup (vecQueue false 3) (vecEnv false))).step
      (.setup (vecQueue true 4) (vecEnv false))) := by
  refine shared_context_kept (fun _ => rfl) ((Run.nil.snoc ⟨?_, ?_⟩).snoc ⟨?_, ?_⟩)
  · exact ⟨by decide, by decide, fun h => absurd h (by decide)⟩
  · exact ⟨fun h => CtxtAns.noConfusion h, .inr (by decide +kernel)⟩
  · exact ⟨by decide, by decide, fun h => absurd h (by decide)⟩
  · exact ⟨fun h => CtxtAns.noConfusion h, .inr (by decide +kernel)⟩

/-- **The shared context is not kept**: on a PF the bit of an earlier aggregation stays set, and
on a VF both vectors are lost. -/
theorem shared_context_lost :
    (PairKept (pairWith false 0x100) ∧
      ((pairWith false 0x100).setup (vecQueue true 2) (vecEnv false)).2 = 0 ∧
      vecPart true ((pairWith false 0x100).step (.setup (vecQueue true 2) (vecEnv false))).word
        = (2, 1) ∧
      askedVec (vecQueue true 2) (vecEnv false) = (2, 0)) ∧
    PairKept (pairWith true (1 <<< 9)) ∧
      ((pairWith true (1 <<< 9)).setup (vecQueue true 2) (vecEnv false)).2 = 0 ∧
      ((pairWith true (1 <<< 9)).step (.setup (vecQueue true 2) (vecEnv false))).word = 0 ∧
      (pairWith true (1 <<< 9)).wrote false = (1, 0) := by
  refine ⟨⟨fun _ => rfl, ?_, ?_, ?_⟩, fun _ => rfl, ?_, ?_, ?_⟩ <;> decide +kernel

end Qdma
