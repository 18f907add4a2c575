/-
# Bringing a queue up and down

The life of one `struct qdma_descq` outside its data path: configuration
(`qdma_descq_config`, `qdma_descq_config_complete`), its rings and receive buffers
(`qdma_descq_alloc_resource`, `qdma_descq_free_resource` and the free-list half in
`qdma_st_c2h.c`), and the parts of `qdma_queue_start` and `qdma_queue_stop` that act
on the queue itself.  What the kernel or the device may answer (an allocation, a
mapping, a context command) is an argument.
-/
import Qdma.Types

namespace Qdma

/-! ## Configuration -/

/-- `qdma_descq_config` on an already added queue (`reconfig` set). -/
def qdmaDescqReconfig (d : Descq) (qconf : QueueConf) (numVecs : ℕ) : Descq :=
  { d with conf := { d.conf with
      descRngSzIdx := qconf.descRngSzIdx
      cmplRngSzIdx := qconf.cmplRngSzIdx
      c2hBufSzIdx := qconf.c2hBufSzIdx
      irqEn := numVecs ≠ 0
      wbkEn := qconf.wbkEn
      wbkAccEn := qconf.wbkAccEn
      wbkPendChk := qconf.wbkPendChk
      cmplStatEn := qconf.cmplStatEn
      cmplTrigMode := qconf.cmplTrigMode
      cmplTimerIdx := qconf.cmplTimerIdx
      fetchCredit := qconf.fetchCredit
      cmplCntThIdx := qconf.cmplCntThIdx
      bypass := qconf.bypass
      pfetchEn := qconf.pfetchEn
      cmplUddEn := qconf.cmplUddEn
      cmplDescSz := qconf.cmplDescSz } }

/-- `qdma_descq_config`. -/
def qdmaDescqConfig (d : Descq) (qconf : QueueConf) (reconfig : Bool) (numVecs : ℕ) : Descq :=
  if reconfig then qdmaDescqReconfig d qconf numVecs else { d with conf := qconf }

/-- `DESC_SZ_RSV`. -/
def descSzRsv : ℕ := 3

/-- The ST C2H part of `qdma_descq_config_complete`: the completion entry size. -/
def cmplConfigComplete (d : Descq) : Descq :=
  let sz := if d.conf.cmplDescSz = descSzRsv then 0 else d.conf.cmplDescSz
  let entryLen := 8 <<< sz
  { d with
    wbEntryLen := entryLen
    conf := { d.conf with
      cmplDescSz := sz
      cmplUddEn := if entryLen > 8 then true else d.conf.cmplUddEn } }

/-- The part of `qdma_descq_config_complete` common to all queues. -/
def ringConfigComplete (d : Descq) (csr : GlobalCsrConf) : Descq :=
  { d with
    conf := { d.conf with
      rngsz := u32Sub (csr.ringSz d.conf.descRngSzIdx) 1
      rngszWrb := u32Sub (csr.ringSz d.conf.descRngSzIdx) 1
      c2hBufsz := csr.c2hBufSz d.conf.c2hBufSzIdx }
    avail := u32Sub (u32Sub (csr.ringSz d.conf.descRngSzIdx) 1) 1
    pidx := 0
    cidx := 0
    cidxWrb := 0
    pidxWrb := 0
    credit := 0 }

/-- `qdma_descq_config_complete`, once the CSR tables are read. -/
def qdmaDescqConfigComplete (d : Descq) (csr : GlobalCsrConf) : Descq :=
  let d := ringConfigComplete d csr
  if d.conf.c2h && d.conf.st then cmplConfigComplete d else d

/-! ## Receive buffers -/

/-- What the kernel answers when a receive buffer is allocated and mapped. -/
inductive FillOutcome where
  | ok (pg dmaAddr : ℕ)
  | noMem
  | mapErr

/-- The slot of the descriptor ring at `i` with another `dst_addr`. -/
def Descq.setDstAddr (d : Descq) (i addr : ℕ) : Descq :=
  { d with desc := { d.desc with
      slot := Function.update d.desc.slot i { d.desc.slot i with dstAddr := addr } } }

/-- The free-list entry at `i` replaced. -/
def Flq.setSdesc (q : Flq) (i : ℕ) (s : FlSdesc) : Flq :=
  { q with sdesc := Function.update q.sdesc i s }

/-- `PAGE_SIZE << pg_order`, the length of an unused receive buffer. -/
def Flq.fullLen (q : Flq) : ℕ := u32 (pageSize <<< q.pgOrder)

/-- `flq_unmap_one`. -/
def flqUnmapOne (d : Descq) (i : ℕ) : Descq :=
  if (d.flq.sdesc i).dmaAddr ≠ 0 then
    { d.setDstAddr i 0 with flq := d.flq.setSdesc i { d.flq.sdesc i with dmaAddr := 0 } }
  else d

/-- `flq_fill_one`. -/
def flqFillOne (d : Descq) (i : ℕ) : FillOutcome → Descq × ℤ
  | .noMem => (d, enomem)
  | .mapErr => (d, einval)
  | .ok pg dmaAddr =>
      let s : FlSdesc := { pg := some pg, dmaAddr := dmaAddr, len := d.flq.fullLen, offset := 0 }
      ({ d.setDstAddr i dmaAddr with flq := d.flq.setSdesc i s }, 0)

/-- `descq_flq_free_resource`: every buffer is unmapped and freed, then the bookkeeping
is cleared. -/
def descqFlqFreeResource (d : Descq) : Descq :=
  let slot := fun i =>
    if i < d.flq.size ∧ (d.flq.sdesc i).pg ≠ none ∧ (d.flq.sdesc i).dmaAddr ≠ 0 then
      { d.desc.slot i with dstAddr := 0 }
    else d.desc.slot i
  { d with desc := { d.desc with slot := slot }, flq := {} }

/-- The fill loop of `descq_flq_alloc_resource` from slot `i` on, `n` slots to go. -/
def flqFillFrom (fill : ℕ → FillOutcome) : ℕ → ℕ → Descq → Descq × ℤ
  | 0, _, d => (d, 0)
  | n + 1, i, d =>
      let (d, rv) := flqFillOne d i (fill i)
      if rv < 0 then (d, rv) else flqFillFrom fill n (i + 1) d

/-- `descq_flq_alloc_resource`; `sdesc` says whether `kzalloc_node` succeeds. -/
def descqFlqAllocResource (d : Descq) (sdesc : Bool) (fill : ℕ → FillOutcome) : Descq × ℤ :=
  if sdesc then
    let q := { d.flq with sdescAlloc := true, sdesc := fun _ => {}, sdescInfo := fun _ => {} }
    let d := { d with flq := q }
    let (d, rv) := flqFillFrom fill d.flq.size 0 d
    if rv < 0 then (descqFlqFreeResource d, rv) else ({ d with cidxWrbPend := 0 }, rv)
  else (d, enomem)

/-! ## Rings -/

/-- `QDMA_ERR_OUT_OF_MEMORY`. -/
def qdmaErrOutOfMemory : ℤ := -14

/-- `QDMA_ERR_INVALID_DESCQ_STATE`. -/
def qdmaErrInvalidDescqState : ℤ := -8

/-- The kernel's answers to the allocations of one `qdma_descq_alloc_resource`. -/
structure AllocEnv where
  desc : Bool
  wrb : Bool
  sdesc : Bool
  fill : ℕ → FillOutcome

/-- `qdma_descq_free_resource`. -/
def qdmaDescqFreeResource (d : Descq) : Descq :=
  let d := if d.desc.alloc then { d with desc := { d.desc with alloc := false } } else d
  if d.descWrb.alloc then
    let d := descqFlqFreeResource d
    { d with descWrb := { d.descWrb with alloc := false } }
  else d

/-- `desc_ring_alloc` for the descriptor ring: zeroed memory. -/
def descRingAlloc (d : Descq) : Descq := { d with desc := { alloc := true } }

/-- `fls`: the position of the highest bit set, counted from 1. -/
def fls (x : ℕ) : ℕ := if x = 0 then 0 else x.log2 + 1

/-- The ST C2H part of `qdma_descq_alloc_resource` before its free list. -/
def wrbRingAlloc (d : Descq) : Descq :=
  { d with
    color := true
    flq := { d.flq with
      size := d.conf.rngsz
      pgShift := (fls d.conf.c2hBufsz + 255) % 256
      pgOrder := ((fls d.conf.c2hBufsz + 255) % 256 + 256 - pageShift) % 256 } }

/-- `qdma_descq_alloc_resource`; `irq` is the vector `desc_alloc_irq` picks, if the
device has any. -/
def qdmaDescqAllocResource (d : Descq) (env : AllocEnv) (irq : Option ℕ) : Descq × ℤ :=
  if env.desc then
    let d := descRingAlloc d
    let (d, rv) :=
      if d.conf.st && d.conf.c2h then
        let d := wrbRingAlloc d
        if env.wrb then
          descqFlqAllocResource
            { d with descWrb := { alloc := true }, descWrbCur := 0 } env.sdesc env.fill
        else (d, qdmaErrOutOfMemory)
      else (d, 0)
    if rv < 0 then (qdmaDescqFreeResource d, qdmaErrOutOfMemory)
    else ({ d with intrId := irq.getD d.intrId }, 0)
  else (qdmaDescqFreeResource d, qdmaErrOutOfMemory)

/-! ## Contexts -/

/-- `qdma_descq_context_clear`; `cleared` says whether the SW context was cleared. -/
def qdmaDescqContextClear (d : Descq) (cleared : Bool) : Descq :=
  { d with ctxValid := d.ctxValid && !cleared }

/-- What the device answers to `qdma_descq_context_setup`: success, or a failure that
leaves the SW context valid or not. -/
inductive CtxOutcome where
  | ok
  | fail (valid : Bool)

/-- `qdma_descq_prog_hw`.  Programming the SW context sets the device's PIDX to 0. -/
def qdmaDescqProgHw (d : Descq) : CtxOutcome → Descq × ℤ
  | .fail valid => ({ d with ctxValid := valid }, eio)
  | .ok =>
      let d := { d with ctxValid := true, regs := {} }
      if d.conf.st && d.conf.c2h then
        (descqC2hPidxUpdate (descqWrbCidxUpdate d 0) (u32Sub d.conf.rngsz 1), 0)
      else (d, 0)

/-! ## Start and stop -/

/-- The answers one `qdma_queue_start` gets. -/
structure StartEnv where
  csr : Option GlobalCsrConf
  alloc : AllocEnv
  irq : Option ℕ
  ctx : CtxOutcome
  ctxCleared : Bool

/-- The label `free_resource` of `qdma_queue_start`. -/
def startFreeResource (d : Descq) : Descq :=
  { qdmaDescqFreeResource d with inited := false }

/-- `descq->inited = 1`. -/
def Descq.markInited (d : Descq) : Descq := { d with inited := true }

/-- `descq->online = 1`. -/
def Descq.markOnline (d : Descq) : Descq := { d with online := true }

/-- `qdma_queue_start` after its check of the flags: rings, contexts, `online`. -/
def descqBringUp (d : Descq) (env : StartEnv) : Descq × ℤ :=
  let (d, rv) := qdmaDescqAllocResource d.markInited env.alloc env.irq
  if rv < 0 then (startFreeResource d, rv)
  else
    let (d, rv) := qdmaDescqProgHw d env.ctx
    if rv < 0 then (startFreeResource (qdmaDescqContextClear d env.ctxCleared), rv)
    else (d.markOnline, 0)

/-- `qdma_queue_start`, on the queue itself: everything up to `online`. -/
def descqStart (d : Descq) (env : StartEnv) : Descq × ℤ :=
  match env.csr with
  | none => (startFreeResource d, einval)
  | some csr =>
      let d := qdmaDescqConfigComplete d csr
      if !d.enabled || d.inited || d.online then (d, qdmaErrInvalidDescqState)
      else descqBringUp d env

/-- `qdma_queue_stop`, on the queue itself. -/
def descqStop (d : Descq) (ctxCleared : Bool) : Descq :=
  let d := { d with wrkthp := none, wbthp := none }
  let d := qdmaDescqFreeResource (qdmaDescqContextClear d ctxCleared)
  { d with online := false, inited := false }

/-- `qdma_queue_reconfig`, on the queue itself. -/
def descqReconfig (d : Descq) (qconf : QueueConf) (numVecs : ℕ) : Descq × ℤ :=
  if !d.enabled || d.inited || d.online then (d, qdmaErrInvalidDescqState)
  else (qdmaDescqConfig d qconf true numVecs, 0)

/-! ## What a successful start went through -/

theorem allocResource_rv (d : Descq) (env : AllocEnv) (irq : Option ℕ) :
    (qdmaDescqAllocResource d env irq).2 = 0 ∨ (qdmaDescqAllocResource d env irq).2 < 0 := by
  unfold qdmaDescqAllocResource
  have hneg : qdmaErrOutOfMemory < 0 := by decide
  by_cases h : env.desc = true
  · simp only [h, if_true]
    split_ifs
    all_goals first | exact .inr hneg | exact .inl rfl
  · rw [if_neg h]
    exact .inr hneg

theorem progHw_rv (d : Descq) (ctx : CtxOutcome) :
    (qdmaDescqProgHw d ctx).2 = 0 ∨ (qdmaDescqProgHw d ctx).2 < 0 := by
  have hneg : eio < 0 := by decide
  cases ctx with
  | ok =>
      unfold qdmaDescqProgHw
      simp only
      split_ifs <;> exact .inl rfl
  | fail valid => exact .inr hneg

theorem descqBringUp_ok {d : Descq} {env : StartEnv} (hok : (descqBringUp d env).2 = 0) :
    (qdmaDescqAllocResource d.markInited env.alloc env.irq).2 = 0 ∧
      (qdmaDescqProgHw (qdmaDescqAllocResource d.markInited env.alloc env.irq).1
        env.ctx).2 = 0 ∧
      (descqBringUp d env).1 =
        (qdmaDescqProgHw (qdmaDescqAllocResource d.markInited env.alloc env.irq).1
          env.ctx).1.markOnline := by
  have ha := allocResource_rv d.markInited env.alloc env.irq
  have hp := progHw_rv (qdmaDescqAllocResource d.markInited env.alloc env.irq).1 env.ctx
  unfold descqBringUp at hok ⊢
  simp only at hok ⊢
  split_ifs at hok ⊢ with h1 h2
  · exact absurd hok h1.ne
  · exact absurd hok h2.ne
  · exact ⟨ha.resolve_right h1, hp.resolve_right h2, rfl⟩

theorem configComplete_flags (d : Descq) (csr : GlobalCsrConf) :
    (qdmaDescqConfigComplete d csr).enabled = d.enabled ∧
      (qdmaDescqConfigComplete d csr).inited = d.inited ∧
      (qdmaDescqConfigComplete d csr).online = d.online := by
  unfold qdmaDescqConfigComplete
  simp only
  split_ifs <;> exact ⟨rfl, rfl, rfl⟩

theorem configComplete_eq {d : Descq} (csr : GlobalCsrConf)
    (hkind : (d.conf.st && d.conf.c2h) = false) :
    qdmaDescqConfigComplete d csr = ringConfigComplete d csr := by
  have hk2 : ((ringConfigComplete d csr).conf.c2h && (ringConfigComplete d csr).conf.st)
      = false := by
    rw [Bool.and_comm]
    exact hkind
  unfold qdmaDescqConfigComplete
  simp only [hk2, Bool.false_eq_true, if_false]

/-- A start that succeeds found an idle queue and brought it up. -/
theorem descqStart_ok {d : Descq} {env : StartEnv} {csr : GlobalCsrConf}
    (hcsr : env.csr = some csr) (hok : (descqStart d env).2 = 0) :
    d.enabled = true ∧ d.inited = false ∧ d.online = false ∧
      descqStart d env = descqBringUp (qdmaDescqConfigComplete d csr) env := by
  obtain ⟨hen, hin, hon⟩ := configComplete_flags d csr
  unfold descqStart at hok ⊢
  rw [hcsr] at hok ⊢
  simp only [hen, hin, hon] at hok ⊢
  by_cases h : (!d.enabled || d.inited || d.online) = true
  · rw [if_pos h] at hok
    exact absurd hok (show qdmaErrInvalidDescqState ≠ 0 by decide)
  · rw [if_neg h]
    have hidle : d.enabled = true ∧ d.inited = false ∧ d.online = false := by
      simpa [and_assoc] using h
    exact ⟨hidle.1, hidle.2.1, hidle.2.2, rfl⟩

/-- Success of `qdma_descq_alloc_resource` on a queue that is not ST C2H. -/
theorem allocResource_ok {d : Descq} {env : AllocEnv} {irq : Option ℕ}
    (hkind : (d.conf.st && d.conf.c2h) = false)
    (hok : (qdmaDescqAllocResource d env irq).2 = 0) :
    (qdmaDescqAllocResource d env irq).1
      = { descRingAlloc d with intrId := irq.getD d.intrId } := by
  revert hok
  unfold qdmaDescqAllocResource descRingAlloc
  cases env.desc with
  | false =>
      intro h
      exact absurd h (show qdmaErrOutOfMemory ≠ 0 by decide)
  | true =>
      simp only [hkind, if_true, Bool.false_eq_true, if_false]
      intro _
      rfl

/-- Success of `qdma_descq_prog_hw` on a queue that is not ST C2H. -/
theorem progHw_ok {d : Descq} {ctx : CtxOutcome} (hkind : (d.conf.st && d.conf.c2h) = false)
    (hok : (qdmaDescqProgHw d ctx).2 = 0) :
    (qdmaDescqProgHw d ctx).1 = { d with ctxValid := true, regs := {} } := by
  cases ctx with
  | ok =>
      unfold qdmaDescqProgHw
      simp only [hkind, Bool.false_eq_true, if_false]
  | fail valid => exact absurd hok (show eio ≠ 0 by decide)

/-- What `descqBringUp` makes of a queue that is not ST C2H. -/
theorem descqBringUp_eq {d : Descq} {env : StartEnv}
    (hkind : (d.conf.st && d.conf.c2h) = false) (hok : (descqBringUp d env).2 = 0) :
    (descqBringUp d env).1 =
      { d with
        inited := true, desc := { alloc := true }, intrId := env.irq.getD d.intrId
        ctxValid := true, regs := {}, online := true } := by
  obtain ⟨ha, hp, heq⟩ := descqBringUp_ok hok
  have hal := allocResource_ok (d := d.markInited) hkind ha
  rw [hal] at heq hp
  rw [heq, progHw_ok (by exact hkind) hp]
  rfl

/-- What a successful start makes of a queue that is not ST C2H. -/
theorem descqStart_eq {d : Descq} {env : StartEnv} {csr : GlobalCsrConf}
    (hcsr : env.csr = some csr) (hkind : (d.conf.st && d.conf.c2h) = false)
    (hok : (descqStart d env).2 = 0) :
    (descqStart d env).1 =
      { ringConfigComplete d csr with
        inited := true, desc := { alloc := true }, intrId := env.irq.getD d.intrId
        ctxValid := true, regs := {}, online := true } := by
  obtain ⟨_, _, _, heq⟩ := descqStart_ok hcsr hok
  rw [heq, configComplete_eq csr hkind] at hok ⊢
  exact descqBringUp_eq (d := ringConfigComplete d csr) hkind hok

/-! ## What the resources leave alone -/

/-- `f` reads nothing that allocating and freeing the rings writes. -/
structure RingFrame {α : Type*} (f : Descq → α) : Prop where
  rings : ∀ d r w cur q, f { d with desc := r, descWrb := w, descWrbCur := cur, flq := q } = f d
  color : ∀ d b, f { d with color := b } = f d
  pend : ∀ d c, f { d with cidxWrbPend := c } = f d

variable {α : Type*} {f : Descq → α}

theorem RingFrame.flqFree (hf : RingFrame f) (d : Descq) : f (descqFlqFreeResource d) = f d :=
  hf.rings d _ d.descWrb d.descWrbCur {}

theorem RingFrame.free (hf : RingFrame f) (d : Descq) : f (qdmaDescqFreeResource d) = f d := by
  have hdesc : ∀ (d : Descq) r, f { d with desc := r } = f d :=
    fun d r => hf.rings d r d.descWrb d.descWrbCur d.flq
  have hwrb : ∀ (d : Descq) r, f { d with descWrb := r } = f d :=
    fun d r => hf.rings d d.desc r d.descWrbCur d.flq
  unfold qdmaDescqFreeResource
  simp only
  split_ifs
  · exact (hwrb _ _).trans ((hf.flqFree _).trans (hdesc d _))
  · exact hdesc d _
  · exact (hwrb _ _).trans (hf.flqFree _)
  · rfl

theorem RingFrame.fillFrom (hf : RingFrame f) (fill : ℕ → FillOutcome) (n i : ℕ) (d : Descq) :
    f (flqFillFrom fill n i d).1 = f d := by
  induction n generalizing i d with
  | zero => rfl
  | succ n ih =>
      have hone : f (flqFillOne d i (fill i)).1 = f d := by
        cases fill i with
        | ok pg addr => exact hf.rings d _ d.descWrb d.descWrbCur _
        | noMem => rfl
        | mapErr => rfl
      rw [flqFillFrom]
      simp only
      split_ifs
      · exact hone
      · exact (ih _ _).trans hone

theorem RingFrame.flqAlloc (hf : RingFrame f) (d : Descq) (sdesc : Bool)
    (fill : ℕ → FillOutcome) : f (descqFlqAllocResource d sdesc fill).1 = f d := by
  have hfill : ∀ q n, f (flqFillFrom fill n 0 { d with flq := q }).1 = f d := fun q n =>
    (hf.fillFrom fill n 0 { d with flq := q }).trans (hf.rings d d.desc d.descWrb d.descWrbCur q)
  unfold descqFlqAllocResource
  simp only
  split_ifs
  · exact (hf.flqFree _).trans (hfill _ _)
  · exact (hf.pend _ _).trans (hfill _ _)
  · rfl

/-- The queue and the return value `qdma_descq_alloc_resource` has when it comes to its end. -/
def allocRings (d : Descq) (env : AllocEnv) : Descq × ℤ :=
  if !env.desc then (d, qdmaErrOutOfMemory)
  else if d.conf.st && d.conf.c2h then
    if env.wrb then
      descqFlqAllocResource
        { wrbRingAlloc (descRingAlloc d) with descWrb := { alloc := true }, descWrbCur := 0 }
        env.sdesc env.fill
    else (wrbRingAlloc (descRingAlloc d), qdmaErrOutOfMemory)
  else (descRingAlloc d, 0)

/-- Its end: the rings are given back, or the vector is chosen. -/
theorem allocResource_eq (d : Descq) (env : AllocEnv) (irq : Option ℕ) :
    qdmaDescqAllocResource d env irq =
      if (allocRings d env).2 < 0 then
        (qdmaDescqFreeResource (allocRings d env).1, qdmaErrOutOfMemory)
      else
        ({ (allocRings d env).1 with intrId := irq.getD (allocRings d env).1.intrId }, 0) := by
  have hneg : qdmaErrOutOfMemory < 0 := by decide
  unfold qdmaDescqAllocResource allocRings
  cases env.desc with
  | true => rfl
  | false => exact (if_pos hneg).symm

theorem RingFrame.allocRings (hf : RingFrame f) (d : Descq) (env : AllocEnv) :
    f (allocRings d env).1 = f d := by
  have hdesc : f (descRingAlloc d) = f d := hf.rings d _ d.descWrb d.descWrbCur d.flq
  have hwrb : f (wrbRingAlloc (descRingAlloc d)) = f d :=
    (hf.rings { descRingAlloc d with color := true } (descRingAlloc d).desc d.descWrb d.descWrbCur
      _).trans ((hf.color _ _).trans hdesc)
  have hflq : f (descqFlqAllocResource { wrbRingAlloc (descRingAlloc d) with
      descWrb := { alloc := true }, descWrbCur := 0 } env.sdesc env.fill).1 = f d :=
    (hf.flqAlloc _ _ _).trans ((hf.rings (wrbRingAlloc (descRingAlloc d)) (descRingAlloc d).desc _
      _ (wrbRingAlloc (descRingAlloc d)).flq).trans hwrb)
  unfold Qdma.allocRings
  split_ifs
  · rfl
  · exact hflq
  · exact hwrb
  · exact hdesc

/-- **Allocating the resources**, for what does not read the vector. -/
theorem RingFrame.alloc (hf : RingFrame f) (hintr : ∀ d v, f { d with intrId := v } = f d)
    (d : Descq) (env : AllocEnv) (irq : Option ℕ) :
    f (qdmaDescqAllocResource d env irq).1 = f d := by
  have hrings := hf.allocRings d env
  rw [allocResource_eq]
  split_ifs
  · exact (hf.free _).trans hrings
  · exact (hintr _ _).trans hrings

end Qdma
