/-
# Starting an ST C2H queue

What a successful `qdma_queue_start` makes of an ST C2H queue: every receive buffer is
unused and of full length, the completion ring is empty, and all buffers but one are the
device's.  `startC2h_eq` gives the queue as a whole.
-/
import Qdma.Setup

namespace Qdma

/-! ## The buffers -/

/-- The queue with other descriptors and receive buffers. -/
def Descq.filled (d : Descq) (slot : ℕ → Desc) (sdesc : ℕ → FlSdesc) : Descq :=
  { d with desc := { d.desc with slot := slot }, flq := { d.flq with sdesc := sdesc } }

/-- The receive buffers from `i` to `j` are whole, the others as they were. -/
def Filled (full i j : ℕ) (old new : ℕ → FlSdesc) : Prop :=
  ∀ k, if i ≤ k ∧ k < j then (new k).len = full ∧ (new k).offset = 0 else new k = old k

/-- The fill loop, when it succeeds, fills every slot. -/
theorem flqFillFrom_ok {fill : ℕ → FillOutcome} {n i : ℕ} {d : Descq}
    (hok : (flqFillFrom fill n i d).2 = 0) :
    ∃ slot sdesc, (flqFillFrom fill n i d).1 = d.filled slot sdesc ∧
      Filled d.flq.fullLen i (i + n) d.flq.sdesc sdesc := by
  induction n generalizing i d with
  | zero =>
      refine ⟨d.desc.slot, d.flq.sdesc, rfl, fun k => ?_⟩
      rw [if_neg (by omega)]
  | succ n ih =>
      rw [flqFillFrom] at hok ⊢
      cases hf : fill i with
      | noMem =>
          rw [hf] at hok
          exact absurd hok (show enomem ≠ 0 by decide)
      | mapErr =>
          rw [hf] at hok
          exact absurd hok (show einval ≠ 0 by decide)
      | ok pg addr =>
          rw [hf] at hok
          set s : FlSdesc := { pg := some pg, dmaAddr := addr, len := d.flq.fullLen } with hs
          set d1 : Descq := { d.setDstAddr i addr with flq := d.flq.setSdesc i s } with hd1
          have hstep : flqFillOne d i (.ok pg addr) = (d1, 0) := rfl
          simp only [hstep, lt_irrefl, if_false] at hok ⊢
          obtain ⟨slot, sdesc, heq, hfill⟩ := ih hok
          refine ⟨slot, sdesc, heq, fun k => ?_⟩
          have hk := hfill k
          have hfull : d1.flq.fullLen = d.flq.fullLen := rfl
          have hsd : d1.flq.sdesc = Function.update d.flq.sdesc i s := rfl
          rw [hfull, hsd] at hk
          by_cases hki : k = i
          · rw [if_neg (by omega), hki, Function.update_self] at hk
            rw [if_pos (by omega), hki, hk]
            exact ⟨rfl, rfl⟩
          · rw [Function.update_of_ne hki] at hk
            by_cases hin : i ≤ k ∧ k < i + (n + 1)
            · rw [if_pos hin]
              rwa [if_pos (by omega)] at hk
            · rw [if_neg hin]
              rwa [if_neg (by omega)] at hk

/-! ## The queue -/

/-- The free list of a queue just started. -/
def Flq.fresh (q : Flq) (rngsz bufsz : ℕ) (sdesc : ℕ → FlSdesc) : Flq :=
  { q with
    size := rngsz
    pgShift := (fls bufsz + 255) % 256
    pgOrder := ((fls bufsz + 255) % 256 + 256 - pageShift) % 256
    sdescAlloc := true
    sdesc := sdesc
    sdescInfo := fun _ => {} }

/-- An ST C2H queue with its rings allocated. -/
def Descq.withRings (d : Descq) (slot : ℕ → Desc) (sdesc : ℕ → FlSdesc) : Descq :=
  { d with
    desc := { alloc := true, slot := slot }
    color := true
    descWrb := { alloc := true }
    descWrbCur := 0
    flq := d.flq.fresh d.conf.rngsz d.conf.c2hBufsz sdesc
    cidxWrbPend := 0 }

theorem flqFillFrom_rv (fill : ℕ → FillOutcome) (n i : ℕ) (d : Descq) :
    (flqFillFrom fill n i d).2 = 0 ∨ (flqFillFrom fill n i d).2 < 0 := by
  induction n generalizing i d with
  | zero => exact .inl rfl
  | succ n ih =>
      rw [flqFillFrom]
      cases fill i with
      | noMem => exact .inr (show enomem < 0 by decide)
      | mapErr => exact .inr (show einval < 0 by decide)
      | ok pg addr => exact ih _ _

theorem flqAllocResource_rv (d : Descq) (sd : Bool) (fill : ℕ → FillOutcome) :
    (descqFlqAllocResource d sd fill).2 = 0 ∨ (descqFlqAllocResource d sd fill).2 < 0 := by
  unfold descqFlqAllocResource
  cases sd with
  | false => exact .inr (show enomem < 0 by decide)
  | true =>
      simp only [if_true]
      split_ifs with h
      · exact .inr h
      · exact .inl ((flqFillFrom_rv _ _ _ _).resolve_right h)

/-- Success of `descq_flq_alloc_resource`. -/
theorem flqAllocResource_ok {d : Descq} {sd : Bool} {fill : ℕ → FillOutcome}
    (hok : (descqFlqAllocResource d sd fill).2 = 0) :
    ∃ slot sdesc, (descqFlqAllocResource d sd fill).1 =
        { d.filled slot sdesc with
          flq := { d.flq with sdescAlloc := true, sdesc := sdesc, sdescInfo := fun _ => {} }
          cidxWrbPend := 0 } ∧
      Filled d.flq.fullLen 0 d.flq.size (fun _ => {}) sdesc := by
  unfold descqFlqAllocResource at hok ⊢
  cases sd with
  | false => exact absurd hok (show enomem ≠ 0 by decide)
  | true =>
      simp only [if_true] at hok ⊢
      set d1 : Descq := { d with
        flq := { d.flq with sdescAlloc := true, sdesc := fun _ => {}, sdescInfo := fun _ => {} } }
        with hd1
      rcases flqFillFrom_rv fill d1.flq.size 0 d1 with h0 | hneg
      · rw [h0, if_neg (lt_irrefl _)]
        obtain ⟨slot, sdesc, heq, hfill⟩ := flqFillFrom_ok h0
        rw [Nat.zero_add] at hfill
        exact ⟨slot, sdesc, by rw [heq]; rfl, hfill⟩
      · rw [if_pos hneg] at hok
        exact absurd hok hneg.ne

/-- An ST C2H queue when `descq_flq_alloc_resource` is called. -/
def Descq.beforeFlq (d : Descq) : Descq :=
  { wrbRingAlloc (descRingAlloc d) with descWrb := { alloc := true }, descWrbCur := 0 }

/-- `qdma_descq_alloc_resource` on an ST C2H queue succeeds with its free list. -/
theorem allocResourceC2h_flq {d : Descq} {env : AllocEnv} {irq : Option ℕ}
    (hkind : (d.conf.st && d.conf.c2h) = true)
    (hok : (qdmaDescqAllocResource d env irq).2 = 0) :
    (descqFlqAllocResource d.beforeFlq env.sdesc env.fill).2 = 0 ∧
      (qdmaDescqAllocResource d env irq).1
        = { (descqFlqAllocResource d.beforeFlq env.sdesc env.fill).1 with
            intrId := irq.getD
              (descqFlqAllocResource d.beforeFlq env.sdesc env.fill).1.intrId } := by
  have hk : ((descRingAlloc d).conf.st && (descRingAlloc d).conf.c2h) = true := hkind
  revert hok
  unfold qdmaDescqAllocResource
  cases env.desc with
  | false =>
      intro h
      exact absurd h (show qdmaErrOutOfMemory ≠ 0 by decide)
  | true =>
      simp only [if_true, hk]
      cases env.wrb with
      | false =>
          intro h
          simp only [Bool.false_eq_true, if_false] at h
          rw [if_pos (show qdmaErrOutOfMemory < 0 by decide)] at h
          exact absurd h (show qdmaErrOutOfMemory ≠ 0 by decide)
      | true =>
          simp only [if_true]
          intro h
          split_ifs at h with hrv
          · exact absurd h (show qdmaErrOutOfMemory ≠ 0 by decide)
          · rw [if_neg hrv]
            exact ⟨(flqAllocResource_rv d.beforeFlq env.sdesc env.fill).resolve_right hrv, rfl⟩

/-- Success of `qdma_descq_alloc_resource` on an ST C2H queue. -/
theorem allocResourceC2h_ok {d : Descq} {env : AllocEnv} {irq : Option ℕ}
    (hkind : (d.conf.st && d.conf.c2h) = true)
    (hok : (qdmaDescqAllocResource d env irq).2 = 0) :
    ∃ slot sdesc, (qdmaDescqAllocResource d env irq).1
        = { d.withRings slot sdesc with intrId := irq.getD d.intrId } ∧
      Filled (d.flq.fresh d.conf.rngsz d.conf.c2hBufsz sdesc).fullLen 0 d.conf.rngsz
        (fun _ => {}) sdesc := by
  obtain ⟨h0, hq⟩ := allocResourceC2h_flq hkind hok
  obtain ⟨slot, sdesc, heq, hfill⟩ := flqAllocResource_ok h0
  refine ⟨slot, sdesc, ?_, hfill⟩
  rw [hq, heq]
  rfl

/-- With a slot to fill, the fill loop succeeds only if the kernel gives a buffer. -/
theorem flqFillFrom_first {fill : ℕ → FillOutcome} {n : ℕ} (hn : n ≠ 0) {d : Descq}
    (hok : (flqFillFrom fill n 0 d).2 = 0) : ∃ pg addr, fill 0 = .ok pg addr := by
  obtain ⟨n, rfl⟩ := Nat.exists_eq_succ_of_ne_zero hn
  rw [flqFillFrom] at hok
  cases hf : fill 0 with
  | noMem =>
      rw [hf] at hok
      exact absurd hok (show enomem ≠ 0 by decide)
  | mapErr =>
      rw [hf] at hok
      exact absurd hok (show einval ≠ 0 by decide)
  | ok pg addr => exact ⟨pg, addr, rfl⟩

/-- So does `descq_flq_alloc_resource`. -/
theorem flqAllocResource_first {d : Descq} {sd : Bool} {fill : ℕ → FillOutcome}
    (hn : d.flq.size ≠ 0) (hok : (descqFlqAllocResource d sd fill).2 = 0) :
    ∃ pg addr, fill 0 = .ok pg addr := by
  unfold descqFlqAllocResource at hok
  cases sd with
  | false => exact absurd hok (show enomem ≠ 0 by decide)
  | true =>
      simp only [if_true] at hok
      split_ifs at hok with h
      · exact absurd hok h.ne
      · exact flqFillFrom_first hn hok

/-- The doorbells of an ST C2H queue just started: all buffers but one are posted. -/
def Regs.fresh (n : ℕ) (slot : ℕ → Desc) : Regs :=
  { pidx := u32Sub n 1, wrbCidx := 0, handed := RingIndex.stretch n slot 0 (u32Sub n 1) }

/-- Success of `qdma_descq_prog_hw` on an ST C2H queue. -/
theorem progHwC2h_ok {d : Descq} {ctx : CtxOutcome} (hkind : (d.conf.st && d.conf.c2h) = true)
    (hok : (qdmaDescqProgHw d ctx).2 = 0) :
    (qdmaDescqProgHw d ctx).1
      = { d with ctxValid := true, regs := Regs.fresh d.conf.rngsz d.desc.slot } := by
  cases ctx with
  | ok =>
      unfold qdmaDescqProgHw
      simp only [hkind, if_true]
      rfl
  | fail valid => exact absurd hok (show eio ≠ 0 by decide)

/-- The queue up, with contexts and doorbells. -/
def Descq.up (d : Descq) : Descq :=
  { d with
    inited := true
    ctxValid := true
    regs := Regs.fresh d.conf.rngsz d.desc.slot
    online := true }

/-- The configuration of an ST C2H queue that is started. -/
def startConf (d : Descq) (csr : GlobalCsrConf) : Descq :=
  cmplConfigComplete (ringConfigComplete d csr)

theorem configComplete_c2h {d : Descq} {csr : GlobalCsrConf}
    (hkind : (d.conf.st && d.conf.c2h) = true) :
    qdmaDescqConfigComplete d csr = startConf d csr := by
  unfold qdmaDescqConfigComplete
  simp only
  rw [if_pos (by rw [Bool.and_comm]; exact hkind)]
  rfl

/-- **What a successful start makes of an ST C2H queue.** -/
theorem startC2h_eq {d : Descq} {env : StartEnv} {csr : GlobalCsrConf}
    (hcsr : env.csr = some csr) (hkind : (d.conf.st && d.conf.c2h) = true)
    (hok : (descqStart d env).2 = 0) :
    ∃ slot sdesc intrId, (descqStart d env).1
        = { ((startConf d csr).withRings slot sdesc).up with intrId := intrId } ∧
      Filled (((startConf d csr).withRings slot sdesc).flq.fullLen) 0 (startConf d csr).conf.rngsz
        (fun _ => {}) sdesc := by
  obtain ⟨_, _, _, heq⟩ := descqStart_ok hcsr hok
  rw [heq, configComplete_c2h hkind] at hok ⊢
  obtain ⟨ha, hp, hup⟩ := descqBringUp_ok hok
  obtain ⟨slot, sdesc, hal, hfill⟩ :=
    allocResourceC2h_ok (d := (startConf d csr).markInited) hkind ha
  rw [hal] at hup hp
  rw [hup, progHwC2h_ok (by exact hkind) hp]
  exact ⟨slot, sdesc, _, rfl, hfill⟩

/-- **A start that succeeds has been given a buffer** if the ring has slots. -/
theorem startC2h_first {d : Descq} {env : StartEnv} {csr : GlobalCsrConf}
    (hcsr : env.csr = some csr) (hkind : (d.conf.st && d.conf.c2h) = true)
    (hok : (descqStart d env).2 = 0) (hslots : u32Sub (csr.ringSz d.conf.descRngSzIdx) 1 ≠ 0) :
    ∃ pg addr, env.alloc.fill 0 = .ok pg addr := by
  obtain ⟨_, _, _, heq⟩ := descqStart_ok hcsr hok
  rw [heq, configComplete_c2h hkind] at hok
  obtain ⟨ha, -, -⟩ := descqBringUp_ok hok
  obtain ⟨hflq, -⟩ := allocResourceC2h_flq (d := (startConf d csr).markInited) hkind ha
  exact flqAllocResource_first hslots hflq

end Qdma
