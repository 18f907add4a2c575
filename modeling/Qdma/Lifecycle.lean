/-
# The life cycle of the queues

Queues are added, configured, started, stopped and removed one after another, in any order and
with any failures.  `queue_life_cycle` says what holds of every queue after each operation:
how its flags go together, on which lists it is linked, when its rings are allocated and when
its context is valid.

Between operations a queue is either idle or up (`QueueInv`), as long as no operation is called
that does not look at the state of the queue it ends: a stop in interrupt mode and a removal
are the ones that do not.
-/
import Qdma.Device
import Qdma.Exec
import Qdma.StartC2h

namespace Qdma

open Exec ListHeads

/-! ## One queue -/

/-- The state of a queue and of its hardware context, its threads, and whether it is an ST C2H
queue. -/
def Descq.life (d : Descq) : Bool × Bool × Bool × Bool × Option ℕ × Option ℕ × Bool :=
  (d.enabled, d.inited, d.online, d.ctxValid, d.wrkthp, d.wbthp, d.conf.st && d.conf.c2h)

/-- What is allocated for it: descriptor ring, completion ring, free list. -/
def Descq.rings (d : Descq) : Bool × Bool × Bool :=
  (d.desc.alloc, d.descWrb.alloc, d.flq.sdescAlloc)

/-- Nothing is allocated. -/
def Descq.NoRings (d : Descq) : Prop := d.rings = (false, false, false)

/-- All is allocated that a queue of its kind has. -/
def Descq.AllRings (d : Descq) : Prop :=
  d.rings = (true, d.conf.st && d.conf.c2h, d.conf.st && d.conf.c2h)

/-- **A queue that is not running.** -/
structure Descq.Idle (d : Descq) : Prop where
  inited : d.inited = false
  online : d.online = false
  ctxValid : d.ctxValid = false
  wrkthp : d.wrkthp = none
  wbthp : d.wbthp = none
  rings : d.NoRings

/-- **A queue that is running.** -/
structure Descq.Up (d : Descq) : Prop where
  enabled : d.enabled = true
  inited : d.inited = true
  online : d.online = true
  rings : d.AllRings

theorem Descq.Idle.congr {d d' : Descq} (h : d.Idle) (hl : d'.life = d.life)
    (hr : d'.rings = d.rings) : d'.Idle := by
  simp only [Descq.life, Prod.mk.injEq] at hl
  obtain ⟨-, h2, h3, h4, h5, h6, -⟩ := hl
  exact ⟨h2.trans h.inited, h3.trans h.online, h4.trans h.ctxValid, h5.trans h.wrkthp,
    h6.trans h.wbthp, hr.trans h.rings⟩

theorem Descq.Up.congr {d d' : Descq} (h : d.Up) (hl : d'.life = d.life)
    (hr : d'.rings = d.rings) : d'.Up := by
  simp only [Descq.life, Prod.mk.injEq] at hl
  obtain ⟨h1, h2, h3, -, -, -, h7⟩ := hl
  refine ⟨h1.trans h.enabled, h2.trans h.inited, h3.trans h.online, ?_⟩
  unfold Descq.AllRings
  rw [hr, h7]
  exact h.rings

/-! ## Resources -/

/-- `qdma_descq_free_resource` frees all rings and touches nothing else. -/
theorem freeResource_life {d : Descq} (hflq : d.descWrb.alloc = false → d.flq.sdescAlloc = false) :
    (qdmaDescqFreeResource d).life = d.life ∧ (qdmaDescqFreeResource d).NoRings ∧
      (qdmaDescqFreeResource d).intrId = d.intrId := by
  unfold qdmaDescqFreeResource descqFlqFreeResource Descq.NoRings Descq.rings
  cases hd : d.desc.alloc <;> cases hw : d.descWrb.alloc <;> simp [Descq.life, hd, hw]
  all_goals exact hflq hw

/-- The first part of the work of `qdma_descq_alloc_resource`: filling the free list. -/
theorem flqFillFrom_life (fill : ℕ → FillOutcome) (n i : ℕ) (d : Descq) :
    (flqFillFrom fill n i d).1.life = d.life ∧ (flqFillFrom fill n i d).1.rings = d.rings ∧
      (flqFillFrom fill n i d).1.intrId = d.intrId := by
  induction n generalizing i d with
  | zero => exact ⟨rfl, rfl, rfl⟩
  | succ n ih =>
      rw [flqFillFrom]
      cases fill i with
      | noMem => exact ⟨rfl, rfl, rfl⟩
      | mapErr => exact ⟨rfl, rfl, rfl⟩
      | ok pg addr =>
          simp only [flqFillOne, lt_irrefl, if_false]
          exact ih _ _

/-- `descq_flq_alloc_resource` that fails. -/
theorem flqAllocResource_life (d : Descq) (sdesc : Bool) (fill : ℕ → FillOutcome) :
    (descqFlqAllocResource d sdesc fill).1.life = d.life ∧
      (descqFlqAllocResource d sdesc fill).1.descWrb.alloc = d.descWrb.alloc := by
  unfold descqFlqAllocResource
  cases sdesc with
  | false => exact ⟨rfl, rfl⟩
  | true =>
      simp only [if_true]
      set d1 : Descq := { d with flq := { d.flq with
        sdescAlloc := true, sdesc := fun _ => {}, sdescInfo := fun _ => {} } }
      obtain ⟨hl, hr, -⟩ := flqFillFrom_life fill d1.flq.size 0 d1
      have hw : (flqFillFrom fill d1.flq.size 0 d1).1.descWrb.alloc = d.descWrb.alloc :=
        congrArg (·.2.1) hr
      split_ifs <;> exact ⟨hl, hw⟩

/-- **A failed `qdma_descq_alloc_resource`** leaves nothing allocated. -/
theorem allocResource_fails {d : Descq} (h : d.NoRings) {env : AllocEnv} {irq : Option ℕ}
    (hrv : (qdmaDescqAllocResource d env irq).2 < 0) :
    (qdmaDescqAllocResource d env irq).1.life = d.life ∧
      (qdmaDescqAllocResource d env irq).1.NoRings := by
  have h3 : d.flq.sdescAlloc = false := congrArg (·.2.2) h
  have hno : ¬ (0 : ℤ) < 0 := lt_irrefl 0
  obtain ⟨desc, wrb, sdesc, fill⟩ := env
  unfold qdmaDescqAllocResource at hrv ⊢
  cases desc with
  | false =>
      obtain ⟨hl, hr, -⟩ := freeResource_life (fun _ => h3)
      exact ⟨hl, hr⟩
  | true =>
      have hk : ((descRingAlloc d).conf.st && (descRingAlloc d).conf.c2h)
          = (d.conf.st && d.conf.c2h) := rfl
      simp only [if_true, hk] at hrv ⊢
      cases hkind : (d.conf.st && d.conf.c2h) with
      | false =>
          simp only [hkind, Bool.false_eq_true, if_false, hno] at hrv
      | true =>
          simp only [hkind, if_true] at hrv ⊢
          cases wrb with
          | false =>
              -- the completion ring failed
              have herr : qdmaErrOutOfMemory < 0 := by decide
              simp only [Bool.false_eq_true, if_false, herr, if_true]
              obtain ⟨hl, hr, -⟩ := freeResource_life (d := wrbRingAlloc (descRingAlloc d))
                (fun _ => h3)
              exact ⟨hl, hr⟩
          | true =>
              -- the free list failed
              simp only [if_true] at hrv ⊢
              set d1 : Descq := { wrbRingAlloc (descRingAlloc d) with
                descWrb := { alloc := true }, descWrbCur := 0 }
              obtain ⟨hl, hw⟩ := flqAllocResource_life d1 sdesc fill
              obtain ⟨hl', hr, -⟩ := freeResource_life
                (d := (descqFlqAllocResource d1 sdesc fill).1) (fun hf => by
                  rw [hw] at hf
                  exact absurd hf (show ¬ true = false by decide))
              split_ifs at hrv ⊢ with hneg
              · exact ⟨hl'.trans hl, hr⟩
              · exact absurd hrv hno

/-- **A successful one** leaves all allocated. -/
theorem allocResource_succeeds {d : Descq} (h : d.NoRings) {env : AllocEnv} {irq : Option ℕ}
    (hrv : (qdmaDescqAllocResource d env irq).2 = 0) :
    (qdmaDescqAllocResource d env irq).1.life = d.life ∧
      (qdmaDescqAllocResource d env irq).1.AllRings ∧
      (qdmaDescqAllocResource d env irq).1.intrId = irq.getD d.intrId := by
  cases hk : (d.conf.st && d.conf.c2h) with
  | false =>
      rw [allocResource_ok hk hrv]
      refine ⟨rfl, ?_, rfl⟩
      show (true, d.descWrb.alloc, d.flq.sdescAlloc)
        = (true, d.conf.st && d.conf.c2h, d.conf.st && d.conf.c2h)
      have h2 : d.descWrb.alloc = false := congrArg (·.2.1) h
      have h3 : d.flq.sdescAlloc = false := congrArg (·.2.2) h
      rw [hk, h2, h3]
  | true =>
      obtain ⟨slot, sdesc, heq, -⟩ := allocResourceC2h_ok hk hrv
      rw [heq]
      refine ⟨rfl, ?_, rfl⟩
      show (true, true, true) = (true, d.conf.st && d.conf.c2h, d.conf.st && d.conf.c2h)
      rw [hk]

/-! ## Starting a queue -/

/-- `qdma_descq_config_complete` touches neither state nor resources. -/
theorem configComplete_life (d : Descq) (csr : GlobalCsrConf) :
    (qdmaDescqConfigComplete d csr).life = d.life ∧
      (qdmaDescqConfigComplete d csr).rings = d.rings ∧
      (qdmaDescqConfigComplete d csr).intrId = d.intrId := by
  unfold qdmaDescqConfigComplete
  simp only
  split_ifs <;> exact ⟨rfl, rfl, rfl⟩

theorem Descq.Idle.freeResource {d : Descq} (h : d.Idle) : (startFreeResource d).Idle ∧
    (startFreeResource d).enabled = d.enabled := by
  obtain ⟨hl, hr, -⟩ := freeResource_life (d := d) (fun _ => congrArg (·.2.2) h.rings)
  have hidle : (qdmaDescqFreeResource d).Idle := h.congr hl (hr.trans h.rings.symm)
  exact ⟨⟨rfl, hidle.online, hidle.ctxValid, hidle.wrkthp, hidle.wbthp, hr⟩, congrArg (·.1) hl⟩

/-- A queue between the two locked sections of its start. -/
structure Descq.Starting (d : Descq) : Prop where
  enabled : d.enabled = true
  inited : d.inited = true
  online : d.online = false
  ctxValid : d.ctxValid = false
  wrkthp : d.wrkthp = none
  wbthp : d.wbthp = none

theorem Descq.Starting.congr {d d' : Descq} (h : d.Starting) (hl : d'.life = d.life) :
    d'.Starting := by
  simp only [Descq.life, Prod.mk.injEq] at hl
  obtain ⟨h1, h2, h3, h4, h5, h6, -⟩ := hl
  exact ⟨h1.trans h.enabled, h2.trans h.inited, h3.trans h.online, h4.trans h.ctxValid,
    h5.trans h.wrkthp, h6.trans h.wbthp⟩

/-- A failure after that takes the queue back. -/
theorem Descq.Starting.free {d : Descq} (h : d.Starting)
    (hflq : d.descWrb.alloc = false → d.flq.sdescAlloc = false) :
    (startFreeResource d).Idle ∧ (startFreeResource d).enabled = true := by
  obtain ⟨hl, hr, -⟩ := freeResource_life hflq
  have hst := h.congr hl
  exact ⟨⟨rfl, hst.online, hst.ctxValid, hst.wrkthp, hst.wbthp, hr⟩, hst.enabled⟩

/-- A context that could not be programmed is not left valid. -/
def StartEnv.Clears (env : StartEnv) : Prop := env.ctx = .fail true → env.ctxCleared = true

/-- **The second locked section** brings the queue up, or takes it back. -/
theorem Descq.Starting.progHw {d : Descq} (h : d.Starting) {rv : ℤ}
    (hrv : rv < 0 ∧ d.NoRings ∨ rv = 0 ∧ d.AllRings) {env : StartEnv} (hctx : env.Clears) :
    (startProgHw d rv env).1.enabled = true ∧
      ((startProgHw d rv env).2 < 0 ∧ (startProgHw d rv env).1.Idle ∨
        (startProgHw d rv env).2 = 0 ∧ (startProgHw d rv env).1.Up ∧
          (startProgHw d rv env).1.intrId = d.intrId) := by
  unfold startProgHw
  rcases hrv with ⟨hneg, hno⟩ | ⟨rfl, hall⟩
  · rw [if_pos hneg]
    obtain ⟨h1, h2⟩ := h.free (fun _ => congrArg (·.2.2) hno)
    exact ⟨h2, .inl ⟨hneg, h1⟩⟩
  · rw [if_neg (lt_irrefl 0)]
    have hflq : d.descWrb.alloc = false → d.flq.sdescAlloc = false := by
      have h2 : d.descWrb.alloc = (d.conf.st && d.conf.c2h) := congrArg (·.2.1) hall
      have h3 : d.flq.sdescAlloc = (d.conf.st && d.conf.c2h) := congrArg (·.2.2) hall
      rw [h2, h3]
      exact id
    cases hc : env.ctx with
    | ok =>
        have hlife : (qdmaDescqProgHw d .ok).1.enabled = d.enabled ∧
            (qdmaDescqProgHw d .ok).1.inited = d.inited ∧
            (qdmaDescqProgHw d .ok).1.rings = d.rings ∧
            (qdmaDescqProgHw d .ok).1.conf = d.conf ∧
            (qdmaDescqProgHw d .ok).1.intrId = d.intrId ∧ (qdmaDescqProgHw d .ok).2 = 0 := by
          unfold qdmaDescqProgHw
          simp only
          split_ifs <;> exact ⟨rfl, rfl, rfl, rfl, rfl, rfl⟩
        obtain ⟨h1, h2, h3, h4, h5, h6⟩ := hlife
        simp only [h6, lt_irrefl, if_false]
        refine ⟨h1.trans h.enabled, .inr ⟨trivial, ⟨h1.trans h.enabled, h2.trans h.inited, rfl, ?_⟩,
          h5⟩⟩
        unfold Descq.AllRings at hall ⊢
        show (qdmaDescqProgHw d .ok).1.rings = (true,
          (qdmaDescqProgHw d .ok).1.conf.st && (qdmaDescqProgHw d .ok).1.conf.c2h,
          (qdmaDescqProgHw d .ok).1.conf.st && (qdmaDescqProgHw d .ok).1.conf.c2h)
        rw [h3, h4]
        exact hall
    | fail valid =>
        -- the contexts are cleared again and the rings freed
        have heio : eio < 0 := by decide
        have hst : (qdmaDescqContextClear { d with ctxValid := valid } env.ctxCleared).Starting := by
          refine ⟨h.enabled, h.inited, h.online, ?_, h.wrkthp, h.wbthp⟩
          show (valid && !env.ctxCleared) = false
          cases valid with
          | false => rfl
          | true => rw [hctx hc]; rfl
        obtain ⟨h1, h2⟩ := hst.free hflq
        show (startFreeResource _).enabled = true ∧ _
        exact ⟨h2, .inl ⟨heio, h1⟩⟩

/-! ## Where a queue is linked -/

/-- The work lists of the request threads. -/
def QdmaDev.wrkLists (x : QdmaDev) : ℕ → List ℕ := fun i => (x.wrk i).workList

/-- The work lists of the completion threads. -/
def QdmaDev.wbLists (x : QdmaDev) : ℕ → List ℕ := fun j => (x.wb j).workList

/-- The queue is linked for a request thread, and for a completion thread in polled mode or
for its vector in interrupt mode. -/
structure QdmaDev.Linked (x : QdmaDev) (id : ℕ) : Prop where
  wrk : ∃ i < x.threadCnt, (x.descq id).wrkthp = some i ∧ OnlyOn x.wrkLists id i
  polled : x.numVecs = 0 → Off x.intrList id ∧
    ∃ j < x.threadCnt, (x.descq id).wbthp = some j ∧ OnlyOn x.wbLists id j
  vector : x.numVecs ≠ 0 → OnlyOn x.intrList id (x.descq id).intrId ∧
    (x.descq id).wbthp = none ∧ Off x.wbLists id

/-- The queue is linked nowhere. -/
structure QdmaDev.Unlinked (x : QdmaDev) (id : ℕ) : Prop where
  wrk : Off x.wrkLists id
  wb : Off x.wbLists id
  intr : Off x.intrList id

/-- **The law of one queue of a device.** -/
def QueueInv (x : QdmaDev) (id : ℕ) : Prop :=
  (x.descq id).Idle ∧ x.Unlinked id ∨ (x.descq id).Up ∧ x.Linked id

/-- What an operation on queue `id` leaves alone: the other queues and where they are linked. -/
structure Elsewhere (x x' : QdmaDev) (id : ℕ) : Prop where
  qmax : x'.qmax = x.qmax
  numVecs : x'.numVecs = x.numVecs
  dvecStartIdx : x'.dvecStartIdx = x.dvecStartIdx
  threadCnt : x'.threadCnt = x.threadCnt
  gone : x'.gone = x.gone
  descq : ∀ id' ≠ id, x'.descq id' = x.descq id'
  wrk : ∀ id' ≠ id, ∀ j, (x'.wrkLists j).count id' = (x.wrkLists j).count id'
  wb : ∀ id' ≠ id, ∀ j, (x'.wbLists j).count id' = (x.wbLists j).count id'
  intr : ∀ id' ≠ id, ∀ j, (x'.intrList j).count id' = (x.intrList j).count id'

theorem Elsewhere.refl (x : QdmaDev) (id : ℕ) : Elsewhere x x id :=
  ⟨rfl, rfl, rfl, rfl, rfl, fun _ _ => rfl, fun _ _ _ => rfl, fun _ _ _ => rfl, fun _ _ _ => rfl⟩

theorem Elsewhere.trans {x y z : QdmaDev} {id : ℕ} (h : Elsewhere x y id)
    (h' : Elsewhere y z id) : Elsewhere x z id :=
  ⟨h'.qmax.trans h.qmax, h'.numVecs.trans h.numVecs, h'.dvecStartIdx.trans h.dvecStartIdx,
    h'.threadCnt.trans h.threadCnt, h'.gone.trans h.gone,
    fun id' hne => (h'.descq id' hne).trans (h.descq id' hne),
    fun id' hne j => (h'.wrk id' hne j).trans (h.wrk id' hne j),
    fun id' hne j => (h'.wb id' hne j).trans (h.wb id' hne j),
    fun id' hne j => (h'.intr id' hne j).trans (h.intr id' hne j)⟩

/-- The other queues keep their law. -/
theorem QueueInv.elsewhere {x x' : QdmaDev} {id id' : ℕ} (h : QueueInv x id')
    (he : Elsewhere x x' id) (hne : id' ≠ id) : QueueInv x' id' := by
  have hd := he.descq id' hne
  unfold QueueInv
  rw [hd]
  rcases h with ⟨hidle, hu⟩ | ⟨hup, hl⟩
  · exact .inl ⟨hidle, hu.wrk.congr (he.wrk id' hne), hu.wb.congr (he.wb id' hne),
      hu.intr.congr (he.intr id' hne)⟩
  · refine .inr ⟨hup, ?_, ?_, ?_⟩
    · obtain ⟨i, hi, hthp, hon⟩ := hl.wrk
      exact ⟨i, he.threadCnt ▸ hi, hd ▸ hthp, hon.congr (he.wrk id' hne)⟩
    · intro hv
      obtain ⟨hoff, j, hj, hthp, hon⟩ := hl.polled (he.numVecs ▸ hv)
      exact ⟨hoff.congr (he.intr id' hne), j, he.threadCnt ▸ hj, hd ▸ hthp,
        hon.congr (he.wb id' hne)⟩
    · intro hv
      obtain ⟨hon, hthp, hoff⟩ := hl.vector (he.numVecs ▸ hv)
      exact ⟨by rw [hd]; exact hon.congr (he.intr id' hne), hd ▸ hthp,
        hoff.congr (he.wb id' hne)⟩

/-- Another state of queue `id`. -/
theorem elsewhere_setDescq (x : QdmaDev) (id : ℕ) (d : Descq) : Elsewhere x (x.setDescq id d) id :=
  { Elsewhere.refl x id with descq := fun _ hne => setDescq_of_ne x d hne }

/-! ## Threads and vectors -/

theorem pickThreadLoop_lt {cnt : ℕ → ℕ} {threadCnt : ℕ} (n i v idx : ℕ) (hi : i + n = threadCnt)
    (hidx : idx < threadCnt ∨ idx = threadCnt ∧ 0 < n) :
    pickThreadLoop cnt threadCnt n i v idx < threadCnt := by
  induction n generalizing i v idx with
  | zero => exact hidx.resolve_right (fun h => lt_irrefl 0 h.2)
  | succ n ih =>
      have hlt : i < threadCnt := by omega
      rw [pickThreadLoop]
      split_ifs with h1 h2 h3
      · exact ih _ _ _ (by omega) (.inl hlt)
      · exact hlt
      · exact ih _ _ _ (by omega) (.inl hlt)
      · exact ih _ _ _ (by omega) (.inl (by omega))

/-- The queue goes to one of the threads. -/
theorem pickThread_lt {x : QdmaDev} (h : 0 < x.threadCnt) : x.pickThread < x.threadCnt :=
  pickThreadLoop_lt _ _ _ _ (Nat.zero_add _) (.inr ⟨rfl, h⟩)

theorem pickVecLoop_lt {cnt : ℕ → ℕ} {numVecs : ℕ} (n i min idx : ℕ) (hi : i + n = numVecs)
    (hidx : idx < numVecs) : pickVecLoop cnt n i min idx < numVecs := by
  induction n generalizing i min idx with
  | zero => exact hidx
  | succ n ih =>
      rw [pickVecLoop]
      simp only
      split_ifs
      · show i < numVecs
        omega
      · exact ih _ _ _ (by omega) (show i < numVecs by omega)
      · exact hidx
      · exact ih _ _ _ (by omega) hidx

/-- The vector picked is one of the device if it has one for data at all. -/
theorem pickVec_lt {x : QdmaDev} (h : x.numVecs ≠ 0) (hd : x.dvecStartIdx < x.numVecs) :
    ∃ v < x.numVecs, x.pickVec = some v := by
  unfold QdmaDev.pickVec
  rw [if_neg h]
  split_ifs
  · exact ⟨_, hd, rfl⟩
  · exact ⟨_, pickVecLoop_lt _ _ _ _ (by omega) hd, rfl⟩

/-- The work lists with a queue more. -/
theorem wrkLists_add (ts : ℕ → Kthread) (i id : ℕ) :
    (fun j => (Function.update ts i ((ts i).add id) j).workList)
      = enqueue (fun j => (ts j).workList) i id := by
  funext j
  unfold enqueue
  by_cases hj : j = i
  · subst hj
    rw [Function.update_self, Function.update_self]
    rfl
  · rw [Function.update_of_ne hj, Function.update_of_ne hj]

/-- The work lists with a queue less. -/
theorem wrkLists_del (ts : ℕ → Kthread) (i id : ℕ) :
    (fun j => (Function.update ts i ((ts i).del id) j).workList)
      = unlink (fun j => (ts j).workList) i id := by
  funext j
  unfold unlink
  by_cases hj : j = i
  · subst hj
    rw [Function.update_self, Function.update_self]
    rfl
  · rw [Function.update_of_ne hj, Function.update_of_ne hj]

/-! ## The operations -/

/-- An operation on queue `id` that keeps the law. -/
structure Keeps (x x' : QdmaDev) (id : ℕ) : Prop where
  elsewhere : Elsewhere x x' id
  queue : QueueInv x' id
  badUnlink : x'.badUnlink = x.badUnlink

theorem Elsewhere.threadAddWork (x : QdmaDev) (id : ℕ) : Elsewhere x (x.threadAddWork id) id := by
  have hlink : Elsewhere x (x.threadLink id) id := by
    refine { Elsewhere.refl x id with wrk := fun id' hne j => ?_, wb := fun id' hne j => ?_ }
    · show (Function.update x.wrk x.pickThread _ j).workList.count id' = _
      rw [congrFun (wrkLists_add x.wrk x.pickThread id) j]
      exact count_enqueue hne _ j
    · unfold QdmaDev.threadLink QdmaDev.wbLists
      simp only
      cases x.pickCmplThread with
      | none => rfl
      | some i =>
          simp only
          rw [congrFun (wrkLists_add x.wb i id) j]
          exact count_enqueue hne _ j
  exact hlink.trans (elsewhere_setDescq _ id _)

theorem Elsewhere.unlinkWrk (x : QdmaDev) (id : ℕ) (rq : Option ℕ) :
    Elsewhere x (x.unlinkWrk id rq) id := by
  cases rq with
  | none => exact .refl x id
  | some i =>
      refine { Elsewhere.refl x id with wrk := fun id' hne j => ?_ }
      show (Function.update x.wrk i _ j).workList.count id' = _
      rw [congrFun (wrkLists_del x.wrk i id) j]
      exact count_unlink hne i j

theorem Elsewhere.unlinkWb (x : QdmaDev) (id : ℕ) (cmpl : Option ℕ) :
    Elsewhere x (x.unlinkWb id cmpl) id := by
  cases cmpl with
  | none => exact .refl x id
  | some i =>
      refine { Elsewhere.refl x id with wb := fun id' hne j => ?_ }
      show (Function.update x.wb i _ j).workList.count id' = _
      rw [congrFun (wrkLists_del x.wb i id) j]
      exact count_unlink hne i j

theorem Elsewhere.intrLink (x : QdmaDev) (id : ℕ) : Elsewhere x (x.intrLink id) id := by
  unfold QdmaDev.intrLink
  simp only
  split_ifs
  · exact { Elsewhere.refl x id with intr := fun id' hne j => count_enqueue hne _ j }
  · exact .refl x id

theorem Elsewhere.intrUnlink (x : QdmaDev) (id : ℕ) : Elsewhere x (x.intrUnlink id) id := by
  unfold QdmaDev.intrUnlink
  simp only
  split_ifs
  · exact .refl x id
  · exact { Elsewhere.refl x id with intr := fun id' hne j => count_unlink hne _ j }

/-- A step that changes nothing but the counts of the vectors. -/
structure SameLinks (x x' : QdmaDev) : Prop where
  qmax : x'.qmax = x.qmax
  numVecs : x'.numVecs = x.numVecs
  dvecStartIdx : x'.dvecStartIdx = x.dvecStartIdx
  threadCnt : x'.threadCnt = x.threadCnt
  gone : x'.gone = x.gone
  descq : x'.descq = x.descq
  wrk : x'.wrk = x.wrk
  wb : x'.wb = x.wb
  intrList : x'.intrList = x.intrList
  badUnlink : x'.badUnlink = x.badUnlink

theorem SameLinks.elsewhere {x x' : QdmaDev} (h : SameLinks x x') (id : ℕ) :
    Elsewhere x x' id := by
  refine ⟨h.qmax, h.numVecs, h.dvecStartIdx, h.threadCnt, h.gone, fun _ _ => by rw [h.descq],
    fun _ _ _ => ?_, fun _ _ _ => ?_, fun _ _ _ => by rw [h.intrList]⟩
  · unfold QdmaDev.wrkLists
    rw [h.wrk]
  · unfold QdmaDev.wbLists
    rw [h.wb]

theorem SameLinks.unlinked {x x' : QdmaDev} (h : SameLinks x x') {id : ℕ} (hu : x.Unlinked id) :
    x'.Unlinked id := by
  obtain ⟨h1, h2, h3⟩ := hu
  refine ⟨?_, ?_, h.intrList ▸ h3⟩
  · unfold QdmaDev.wrkLists
    rw [h.wrk]
    exact h1
  · unfold QdmaDev.wbLists
    rw [h.wb]
    exact h2

theorem sameLinks_countVec (x : QdmaDev) : SameLinks x x.countVec := by
  unfold QdmaDev.countVec
  cases x.pickVec with
  | none => exact ⟨rfl, rfl, rfl, rfl, rfl, rfl, rfl, rfl, rfl, rfl⟩
  | some v =>
      simp only
      split_ifs <;> exact ⟨rfl, rfl, rfl, rfl, rfl, rfl, rfl, rfl, rfl, rfl⟩

theorem sameLinks_descFreeIrq (x : QdmaDev) (id : ℕ) : SameLinks x (x.descFreeIrq id) := by
  unfold QdmaDev.descFreeIrq
  simp only
  split_ifs <;> exact ⟨rfl, rfl, rfl, rfl, rfl, rfl, rfl, rfl, rfl, rfl⟩

theorem sameLinks_uncount (x : QdmaDev) (c2h : Bool) : SameLinks x (x.uncount c2h) := by
  unfold QdmaDev.uncount
  split_ifs <;> exact ⟨rfl, rfl, rfl, rfl, rfl, rfl, rfl, rfl, rfl, rfl⟩

/-- The law says nothing about the counts. -/
theorem QueueInv.sameLinks {x x' : QdmaDev} {id : ℕ} (h : QueueInv x id) (hs : SameLinks x x') :
    QueueInv x' id := by
  unfold QueueInv
  rw [hs.descq]
  rcases h with ⟨hidle, hu⟩ | ⟨hup, hlink⟩
  · exact .inl ⟨hidle, hs.unlinked hu⟩
  · have hw : x'.wrkLists = x.wrkLists := by
      unfold QdmaDev.wrkLists
      rw [hs.wrk]
    have hb : x'.wbLists = x.wbLists := by
      unfold QdmaDev.wbLists
      rw [hs.wb]
    refine .inr ⟨hup, ?_, ?_, ?_⟩
    · rw [hs.threadCnt, hs.descq, hw]
      exact hlink.wrk
    · rw [hs.numVecs, hs.intrList, hs.threadCnt, hs.descq, hb]
      exact hlink.polled
    · rw [hs.numVecs, hs.intrList, hs.descq, hb]
      exact hlink.vector

/-- The same lists, and the queue in another state that is not running. -/
theorem keeps_idle {x x' : QdmaDev} {id : ℕ} (hu : x.Unlinked id) (h : SameLinks x x') {d : Descq}
    (hd : d.Idle) : Keeps x (x'.setDescq id d) id := by
  obtain ⟨h1, h2, h3⟩ := h.unlinked hu
  refine ⟨(h.elsewhere id).trans (elsewhere_setDescq x' id d), .inl ⟨?_, h1, h2, h3⟩, h.badUnlink⟩
  rw [setDescq_self]
  exact hd

theorem SameLinks.refl (x : QdmaDev) : SameLinks x x :=
  ⟨rfl, rfl, rfl, rfl, rfl, rfl, rfl, rfl, rfl, rfl⟩

/-- The lists once the queue is given to its threads. -/
theorem threadLink_wrk (x : QdmaDev) (id : ℕ) :
    (x.threadLink id).wrkLists = enqueue x.wrkLists x.pickThread id := wrkLists_add ..

theorem threadLink_wb {x : QdmaDev} {j : ℕ} (h : x.pickCmplThread = some j) (id : ℕ) :
    (x.threadLink id).wbLists = enqueue x.wbLists j id := by
  unfold QdmaDev.threadLink QdmaDev.wbLists
  simp only [h]
  exact wrkLists_add ..

theorem threadLink_wb_none {x : QdmaDev} (h : x.pickCmplThread = none) (id : ℕ) :
    (x.threadLink id).wbLists = x.wbLists := by
  unfold QdmaDev.threadLink QdmaDev.wbLists
  simp only [h]

theorem threadAddWork_descq (x : QdmaDev) (id : ℕ) :
    (x.threadAddWork id).descq id
      = { x.descq id with wrkthp := some x.pickThread, wbthp := x.pickCmplThread } :=
  setDescq_self ..

/-- `list_add_tail` of the interrupt node. -/
theorem intrLink_polled {x : QdmaDev} (h : x.numVecs = 0) (id : ℕ) : x.intrLink id = x := by
  unfold QdmaDev.intrLink
  exact if_neg (fun hne => hne.1 h)

theorem intrLink_vector {x : QdmaDev} {id : ℕ} (h : x.numVecs ≠ 0)
    (hv : (x.descq id).intrId < x.numVecs) :
    x.intrLink id = { x with intrList := enqueue x.intrList (x.descq id).intrId id } := by
  unfold QdmaDev.intrLink
  exact if_pos ⟨h, hv⟩

/-- **Attaching a queue** to its threads, and to its vector in interrupt mode. -/
theorem linked_attach {x : QdmaDev} {id : ℕ} (hu : x.Unlinked id) (ht : 0 < x.threadCnt)
    (hv : x.numVecs ≠ 0 → (x.descq id).intrId < x.numVecs) :
    ((x.threadAddWork id).intrLink id).Linked id := by
  have hpick := pickThread_lt ht
  have hd := threadAddWork_descq x id
  have hwrk : OnlyOn (x.threadAddWork id).wrkLists id x.pickThread := by
    show OnlyOn (x.threadLink id).wrkLists id _
    rw [threadLink_wrk]
    exact hu.wrk.enqueue _
  by_cases h0 : x.numVecs = 0
  · -- polled mode
    have hcmpl : x.pickCmplThread = some (x.threadCnt - x.pickThread - 1) := if_pos h0
    have hwb : OnlyOn (x.threadAddWork id).wbLists id (x.threadCnt - x.pickThread - 1) := by
      show OnlyOn (x.threadLink id).wbLists id _
      rw [threadLink_wb hcmpl]
      exact hu.wb.enqueue _
    have hlt : x.threadCnt - x.pickThread - 1 < x.threadCnt := by omega
    rw [intrLink_polled (x := x.threadAddWork id) h0]
    exact ⟨⟨_, hpick, congrArg Descq.wrkthp hd, hwrk⟩,
      fun _ => ⟨hu.intr, _, hlt, (congrArg Descq.wbthp hd).trans hcmpl, hwb⟩,
      fun hne => absurd h0 hne⟩
  · -- interrupt mode
    have hcmpl : x.pickCmplThread = none := if_neg h0
    have hint : ((x.threadAddWork id).descq id).intrId = (x.descq id).intrId := by rw [hd]
    have hwb : Off (x.threadAddWork id).wbLists id := by
      show Off (x.threadLink id).wbLists id
      rw [threadLink_wb_none hcmpl]
      exact hu.wb
    rw [intrLink_vector (x := x.threadAddWork id) h0 (hint ▸ hv h0)]
    exact ⟨⟨_, hpick, congrArg Descq.wrkthp hd, hwrk⟩, fun h => absurd h h0,
      fun _ => ⟨hu.intr.enqueue _, (congrArg Descq.wbthp hd).trans hcmpl, hwb⟩⟩

/-- Unlinking the node of a request thread that is linked. -/
theorem unlinkWrk_some {x : QdmaDev} {id i : ℕ} (h : OnlyOn x.wrkLists id i) :
    Off (x.unlinkWrk id (some i)).wrkLists id ∧
      (x.unlinkWrk id (some i)).badUnlink = x.badUnlink := by
  constructor
  · show Off (fun j => (Function.update x.wrk i ((x.wrk i).del id) j).workList) id
    rw [wrkLists_del]
    exact h.unlink
  · have hon : id ∈ (x.wrk i).workList := h.mem
    show (x.badUnlink || decide (id ∉ (x.wrk i).workList)) = x.badUnlink
    rw [decide_eq_false (not_not_intro hon), Bool.or_false]

/-- The same for a completion thread. -/
theorem unlinkWb_some {x : QdmaDev} {id j : ℕ} (h : OnlyOn x.wbLists id j) :
    Off (x.unlinkWb id (some j)).wbLists id ∧
      (x.unlinkWb id (some j)).badUnlink = x.badUnlink := by
  constructor
  · show Off (fun k => (Function.update x.wb j ((x.wb j).del id) k).workList) id
    rw [wrkLists_del]
    exact h.unlink
  · have hon : id ∈ (x.wb j).workList := h.mem
    show (x.badUnlink || decide (id ∉ (x.wb j).workList)) = x.badUnlink
    rw [decide_eq_false (not_not_intro hon), Bool.or_false]

/-- `list_del` of the interrupt node. -/
theorem intrUnlink_polled {x : QdmaDev} (h : x.numVecs = 0) (id : ℕ) : x.intrUnlink id = x := by
  unfold QdmaDev.intrUnlink
  exact if_pos h

theorem intrUnlink_vector {x : QdmaDev} {id : ℕ} (hv : x.numVecs ≠ 0)
    (h : OnlyOn x.intrList id (x.descq id).intrId) :
    Off (x.intrUnlink id).intrList id ∧ (x.intrUnlink id).badUnlink = x.badUnlink ∧
      (x.intrUnlink id).descq = x.descq ∧ (x.intrUnlink id).wrkLists = x.wrkLists ∧
      (x.intrUnlink id).wbLists = x.wbLists := by
  have heq : x.intrUnlink id = { x with
      intrList := unlink x.intrList (x.descq id).intrId id
      badUnlink := x.badUnlink || decide (id ∉ x.intrList (x.descq id).intrId) } := by
    unfold QdmaDev.intrUnlink
    exact if_neg hv
  rw [heq]
  refine ⟨h.unlink, ?_, rfl, rfl, rfl⟩
  show (x.badUnlink || decide _) = x.badUnlink
  rw [decide_eq_false (not_not_intro h.mem), Bool.or_false]

/-- **Detaching a queue**: every node is taken off the list it is on. -/
theorem unlinked_detach {x : QdmaDev} {id : ℕ} (h : x.Linked id) :
    ((x.threadRemoveWork id).intrUnlink id).Unlinked id ∧
      ((x.threadRemoveWork id).intrUnlink id).badUnlink = x.badUnlink ∧
      ((x.threadRemoveWork id).intrUnlink id).descq id
        = { x.descq id with wrkthp := none, wbthp := none } := by
  obtain ⟨i, -, hrq, hwrk⟩ := h.wrk
  set x1 := x.threadAssign id none none with hx1
  have hd1 : x1.descq id = { x.descq id with wrkthp := none, wbthp := none } := setDescq_self ..
  obtain ⟨hoff, hbad⟩ := unlinkWrk_some (x := x1) hwrk
  have hremove : x.threadRemoveWork id
      = (x1.unlinkWrk id (some i)).unlinkWb id (x.descq id).wbthp := by
    unfold QdmaDev.threadRemoveWork
    rw [hrq]
  rw [hremove]
  by_cases h0 : x.numVecs = 0
  · -- polled mode
    obtain ⟨hintr, j, -, hcmpl, hwb⟩ := h.polled h0
    rw [hcmpl]
    obtain ⟨hoffb, hbadb⟩ := unlinkWb_some (x := x1.unlinkWrk id (some i)) hwb
    rw [intrUnlink_polled (x := (x1.unlinkWrk id (some i)).unlinkWb id (some j)) h0]
    exact ⟨⟨hoff, hoffb, hintr⟩, hbadb.trans hbad, hd1⟩
  · -- interrupt mode
    obtain ⟨hintr, hcmpl, hwb⟩ := h.vector h0
    rw [hcmpl]
    have hon : OnlyOn (x1.unlinkWrk id (some i)).intrList id
        ((x1.unlinkWrk id (some i)).descq id).intrId := by
      show OnlyOn x.intrList id (x1.descq id).intrId
      rw [hd1]
      exact hintr
    obtain ⟨hoffi, hbadi, hdi, hwi, hbi⟩ :=
      intrUnlink_vector (x := x1.unlinkWrk id (some i)) h0 hon
    refine ⟨⟨?_, ?_, hoffi⟩, hbadi.trans hbad, ?_⟩
    · show Off ((x1.unlinkWrk id (some i)).intrUnlink id).wrkLists id
      rw [hwi]
      exact hoff
    · show Off ((x1.unlinkWrk id (some i)).intrUnlink id).wbLists id
      rw [hbi]
      exact hwb
    · show ((x1.unlinkWrk id (some i)).intrUnlink id).descq id = _
      rw [hdi]
      exact hd1

/-- Nothing is done. -/
theorem Keeps.refl {x : QdmaDev} {id : ℕ} (h : QueueInv x id) : Keeps x x id :=
  ⟨.refl x id, h, rfl⟩

/-- The queue stays as it is but for data. -/
theorem QueueInv.same_life {x : QdmaDev} {id : ℕ} (h : QueueInv x id) {d : Descq}
    (hl : d.life = (x.descq id).life) (hr : d.rings = (x.descq id).rings)
    (hi : d.intrId = (x.descq id).intrId) : Keeps x (x.setDescq id d) id := by
  refine ⟨elsewhere_setDescq x id d, ?_, rfl⟩
  unfold QueueInv
  rw [setDescq_self]
  rcases h with ⟨hidle, hu⟩ | ⟨hup, hlink⟩
  · exact .inl ⟨hidle.congr hl hr, hu.wrk, hu.wb, hu.intr⟩
  · refine .inr ⟨hup.congr hl hr, ?_, ?_, ?_⟩
    all_goals rw [setDescq_self]
    · rw [show d.wrkthp = (x.descq id).wrkthp from congrArg (·.2.2.2.2.1) hl]
      exact hlink.wrk
    · rw [show d.wbthp = (x.descq id).wbthp from congrArg (·.2.2.2.2.2.1) hl]
      exact hlink.polled
    · rw [show d.wbthp = (x.descq id).wbthp from congrArg (·.2.2.2.2.2.1) hl, hi]
      exact hlink.vector

/-- A start is called for: without the CSR tables only on a queue that is not running, a
context that could not be programmed is cleared, and the device has a vector for data if it
has any. -/
def StartOk (x : QdmaDev) (id : ℕ) (env : StartEnv) : Prop :=
  (env.csr = none → (x.descq id).inited = false) ∧ env.Clears ∧
    (x.numVecs ≠ 0 → x.dvecStartIdx < x.numVecs)

/-- The last part of a start. -/
theorem startFinish_keeps {x x' : QdmaDev} {id : ℕ} (hu : x.Unlinked id) (ht : 0 < x.threadCnt)
    (hs : SameLinks x x') {d : Descq} (hst : d.Starting) {rv : ℤ}
    (hrv : rv < 0 ∧ d.NoRings ∨ rv = 0 ∧ d.AllRings) {env : StartEnv} (hctx : env.Clears)
    (hv : rv = 0 → x.numVecs ≠ 0 → d.intrId < x.numVecs) :
    Keeps x (((x'.setDescq id d).startFinish id rv env).1) id := by
  obtain ⟨-, hcase⟩ := hst.progHw hrv hctx
  unfold QdmaDev.startFinish
  rw [setDescq_self]
  have hset : ∀ d', (x'.setDescq id d).setDescq id d' = x'.setDescq id d' := by
    intro d'
    unfold QdmaDev.setDescq
    simp only [Function.update_idem]
  simp only [hset]
  rcases hcase with ⟨hneg, hidle⟩ | ⟨hzero, hup, hintr⟩
  · rw [if_pos hneg]
    exact keeps_idle hu hs hidle
  · rw [if_neg (by rw [hzero]; exact lt_irrefl 0)]
    simp only
    have hrv0 : rv = 0 := by
      rcases hrv with ⟨hneg, -⟩ | ⟨h0, -⟩
      · unfold startProgHw at hzero
        rw [if_pos hneg] at hzero
        exact absurd hzero hneg.ne
      · exact h0
    -- the queue is up: what remains is to link it to a thread and a vector
    set d' := (startProgHw d rv env).1 with hd'
    set x2 := x'.setDescq id d' with hx2
    have hd2 : x2.descq id = d' := setDescq_self ..
    have hu2 : x2.Unlinked id := by
      obtain ⟨h1, h2, h3⟩ := hs.unlinked hu
      exact ⟨h1, h2, h3⟩
    have ht2 : 0 < x2.threadCnt := hs.threadCnt ▸ ht
    have hv2 : x2.numVecs ≠ 0 → (x2.descq id).intrId < x2.numVecs := by
      intro hne
      rw [hd2, hintr]
      have hnum : x2.numVecs = x.numVecs := hs.numVecs
      rw [hnum] at hne ⊢
      exact hv hrv0 hne
    refine ⟨?_, .inr ⟨?_, linked_attach hu2 ht2 hv2⟩, ?_⟩
    · exact ((hs.elsewhere id).trans (elsewhere_setDescq x' id d')).trans
        ((Elsewhere.threadAddWork x2 id).trans (Elsewhere.intrLink _ id))
    · have hdesc : ((x2.threadAddWork id).intrLink id).descq id
          = { d' with wrkthp := some x2.pickThread, wbthp := x2.pickCmplThread } := by
        have h1 : ((x2.threadAddWork id).intrLink id).descq = (x2.threadAddWork id).descq := by
          unfold QdmaDev.intrLink
          simp only
          split_ifs <;> rfl
        rw [h1, threadAddWork_descq, hd2]
      rw [hdesc]
      exact ⟨hup.enabled, hup.inited, hup.online, hup.rings⟩
    · have h1 : ((x2.threadAddWork id).intrLink id).badUnlink = x2.badUnlink := by
        unfold QdmaDev.intrLink
        simp only
        split_ifs <;> rfl
      exact h1.trans hs.badUnlink

/-- A start with the CSR tables, from its first locked section on. -/
theorem QueueInv.startFrom {x : QdmaDev} {id : ℕ} (h : QueueInv x id) (ht : 0 < x.threadCnt)
    {env : StartEnv} (hctx : env.Clears) (hvec : x.numVecs ≠ 0 → x.dvecStartIdx < x.numVecs)
    {d : Descq} (hen : d.enabled = true) (hl : d.life = (x.descq id).life)
    (hr : d.rings = (x.descq id).rings) (hi : d.intrId = (x.descq id).intrId) :
    Keeps x
      (if (startCheck d).2 < 0 then (x.setDescq id (startCheck d).1, (startCheck d).2)
      else
        let (d, rv) := qdmaDescqAllocResource (startCheck d).1 env.alloc x.pickVec
        let x := x.setDescq id d
        (if rv < 0 then x else x.countVec).startFinish id rv env).1 id := by
  rcases h with ⟨hidle, hu⟩ | ⟨hup, hlink⟩
  · -- the queue is brought up
    have hidle' := hidle.congr hl hr
    have hcheck : startCheck d = (d.markInited, 0) := by
      unfold startCheck
      rw [hen, hidle'.inited, hidle'.online]
      rfl
    rw [hcheck]
    simp only [lt_irrefl, if_false]
    have hst : d.markInited.Starting :=
      ⟨hen, rfl, hidle'.online, hidle'.ctxValid, hidle'.wrkthp, hidle'.wbthp⟩
    have hno : d.markInited.NoRings := hidle'.rings
    rcases allocResource_rv d.markInited env.alloc x.pickVec with hz | hneg
    · obtain ⟨al, ar, ai⟩ := allocResource_succeeds hno hz
      rw [hz, if_neg (lt_irrefl 0)]
      set d1 := (qdmaDescqAllocResource d.markInited env.alloc x.pickVec).1
      have hcv : (x.setDescq id d1).countVec = x.countVec.setDescq id d1 := by
        have hp : (x.setDescq id d1).pickVec = x.pickVec := rfl
        unfold QdmaDev.countVec
        rw [hp]
        cases x.pickVec with
        | none => rfl
        | some v =>
            simp only
            show (if x.intrCoalEn then _ else _) = QdmaDev.setDescq (if x.intrCoalEn then _ else _) _ _
            split_ifs <;> rfl
      rw [hcv]
      refine startFinish_keeps hu ht (sameLinks_countVec x) (hst.congr al) (.inr ⟨rfl, ar⟩)
        hctx (fun _ hne => ?_)
      obtain ⟨v, hv, hpick⟩ := pickVec_lt hne (hvec hne)
      rw [ai, hpick]
      exact hv
    · obtain ⟨al, ar⟩ := allocResource_fails hno hneg
      rw [if_pos hneg]
      exact startFinish_keeps hu ht (.refl x) (hst.congr al) (.inl ⟨hneg, ar⟩) hctx
        (fun h0 => absurd h0 hneg.ne)
  · -- it is running already
    have herr : qdmaErrInvalidDescqState < 0 := by decide
    have hcheck : startCheck d = (d, qdmaErrInvalidDescqState) := by
      have hin : d.inited = true := (hup.congr hl hr).inited
      unfold startCheck
      rw [hin, Bool.or_true, Bool.true_or]
      rfl
    rw [hcheck]
    simp only [herr, if_true]
    exact QueueInv.same_life (.inr ⟨hup, hlink⟩) hl hr hi

/-- **`qdma_queue_start`** keeps the law. -/
theorem QueueInv.start {x : QdmaDev} {id : ℕ} (h : QueueInv x id) (ht : 0 < x.threadCnt)
    {env : StartEnv} (hok : x.Has id → StartOk x id env) : Keeps x (x.queueStart id env).1 id := by
  unfold QdmaDev.queueStart
  by_cases hhas : x.Has id
  swap
  · rw [if_neg hhas]
    exact .refl h
  rw [if_pos hhas]
  obtain ⟨hcsr, hctx, hvec⟩ := hok hhas
  have hen : (x.descq id).enabled = true := hhas.2.2
  cases hc : env.csr with
  | none =>
      -- without the CSR tables the rings are freed
      have hinit := hcsr hc
      rcases h with ⟨hidle, hu⟩ | ⟨hup, -⟩
      · have heinval : einval < 0 := by decide
        show Keeps x (if einval < 0 then (x.setDescq id (startFreeResource (x.descq id)), einval)
          else _).1 id
        rw [if_pos heinval]
        exact keeps_idle hu (.refl x) hidle.freeResource.1
      · rw [hup.inited] at hinit
        exact absurd hinit (by decide)
  | some csr =>
      obtain ⟨hl, hr, hi⟩ := configComplete_life (x.descq id) csr
      have hno : ¬ (0 : ℤ) < 0 := lt_irrefl 0
      simp only [startConfig, hno, if_false]
      exact h.startFrom ht hctx hvec ((congrArg (·.1) hl).trans hen) hl hr hi

/-- A queue that is not enabled is not running. -/
theorem QueueInv.idle {x : QdmaDev} {id : ℕ} (h : QueueInv x id)
    (hen : (x.descq id).enabled = false) : (x.descq id).Idle ∧ x.Unlinked id := by
  rcases h with hidle | ⟨hup, -⟩
  · exact hidle
  · rw [hup.enabled] at hen
    exact absurd hen (by decide)

/-- A stop is called for: in interrupt mode only on a queue that is running, and the device
clears a context that is valid. -/
def StopOk (x : QdmaDev) (id : ℕ) (ctxCleared : Bool) : Prop :=
  (x.numVecs ≠ 0 → (x.descq id).online = true) ∧
    ((x.descq id).ctxValid = true → ctxCleared = true)

/-- The end of a stop leaves the queue idle. -/
theorem stopOffline_idle {d : Descq} {ctxCleared : Bool}
    (hflq : d.descWrb.alloc = false → d.flq.sdescAlloc = false) (hrq : d.wrkthp = none)
    (hcmpl : d.wbthp = none) (hctx : d.ctxValid = true → ctxCleared = true) :
    (stopOffline (stopRelease d ctxCleared)).Idle := by
  obtain ⟨hl, hr, -⟩ := freeResource_life (d := qdmaDescqContextClear d ctxCleared) hflq
  simp only [Descq.life, Prod.mk.injEq] at hl
  obtain ⟨-, -, -, h4, h5, h6, -⟩ := hl
  refine ⟨rfl, rfl, ?_, h5.trans hrq, h6.trans hcmpl, hr⟩
  show (qdmaDescqFreeResource (qdmaDescqContextClear d ctxCleared)).ctxValid = false
  rw [h4]
  show (d.ctxValid && !ctxCleared) = false
  cases hv : d.ctxValid with
  | false => rfl
  | true => rw [hctx hv]; rfl

theorem Elsewhere.threadRemoveWork (x : QdmaDev) (id : ℕ) :
    Elsewhere x (x.threadRemoveWork id) id := by
  unfold QdmaDev.threadRemoveWork
  exact ((elsewhere_setDescq x id _).trans (.unlinkWrk _ id _)).trans (.unlinkWb _ id _)

/-- **`qdma_queue_stop`** keeps the law, and leaves the queue idle. -/
theorem QueueInv.stop {x : QdmaDev} {id : ℕ} (h : QueueInv x id) {ctxCleared : Bool}
    (hok : x.Has id → StopOk x id ctxCleared) :
    Keeps x (x.queueStop id ctxCleared) id ∧
      (x.Has id → ((x.queueStop id ctxCleared).descq id).Idle) := by
  by_cases hhas : x.Has id
  swap
  · unfold QdmaDev.queueStop
    rw [if_neg hhas]
    exact ⟨.refl h, fun hh => absurd hh hhas⟩
  obtain ⟨hon, hctx⟩ := hok hhas
  have hdetach : ((x.threadRemoveWork id).intrUnlink id).Unlinked id ∧
      ((x.threadRemoveWork id).intrUnlink id).badUnlink = x.badUnlink ∧
      ((x.threadRemoveWork id).intrUnlink id).descq id
        = { x.descq id with wrkthp := none, wbthp := none } ∧
      ((x.descq id).descWrb.alloc = false → (x.descq id).flq.sdescAlloc = false) := by
    rcases h with ⟨hidle, hu⟩ | ⟨hup, hlink⟩
    · -- nothing is linked: only in polled mode nothing is unlinked
      have h0 : x.numVecs = 0 := by
        by_contra hne
        have hon' := hon hne
        rw [hidle.online] at hon'
        exact absurd hon' (by decide)
      have hremove : x.threadRemoveWork id = x.threadAssign id none none := by
        unfold QdmaDev.threadRemoveWork
        rw [hidle.wrkthp, hidle.wbthp]
        rfl
      rw [hremove, intrUnlink_polled (x := x.threadAssign id none none) h0]
      exact ⟨⟨hu.wrk, hu.wb, hu.intr⟩, rfl, setDescq_self .., fun _ => congrArg (·.2.2) hidle.rings⟩
    · obtain ⟨h1, h2, h3⟩ := unlinked_detach hlink
      refine ⟨h1, h2, h3, ?_⟩
      have hw : (x.descq id).descWrb.alloc = _ := congrArg (·.2.1) hup.rings
      have hf : (x.descq id).flq.sdescAlloc = _ := congrArg (·.2.2) hup.rings
      rw [hw, hf]
      exact fun hno => hno
  obtain ⟨hu, hbad, hd, hflq⟩ := hdetach
  have helse : Elsewhere x ((x.threadRemoveWork id).intrUnlink id) id :=
    (Elsewhere.threadRemoveWork x id).trans (.intrUnlink _ id)
  unfold QdmaDev.queueStop
  rw [if_pos hhas]
  simp only
  generalize (x.threadRemoveWork id).intrUnlink id = x1 at hu hbad hd helse ⊢
  have hidle : (stopOffline (stopRelease (x1.descq id) ctxCleared)).Idle := by
    rw [hd]
    exact stopOffline_idle hflq rfl rfl hctx
  have hk := keeps_idle hu (.refl x1) hidle
  refine ⟨⟨helse.trans hk.elsewhere, hk.queue, hk.badUnlink.trans hbad⟩, fun _ => ?_⟩
  rw [setDescq_self]
  exact hidle

/-- `qdma_descq_cleanup` of a queue that is idle. -/
theorem descqCleanup_keeps {x : QdmaDev} {id : ℕ} (hidle : (x.descq id).Idle)
    (hu : x.Unlinked id) (ctxCleared : Bool) :
    Keeps x (x.descqCleanup id ctxCleared) id ∧
      ((x.descqCleanup id ctxCleared).descq id).Idle ∧
      (x.descqCleanup id ctxCleared).Unlinked id := by
  have hs := sameLinks_descFreeIrq x id
  have hx : x.setDescq id (x.descq id) = x := by
    unfold QdmaDev.setDescq
    rw [Function.update_eq_self]
  have heq : x.descqCleanup id ctxCleared
      = (x.descFreeIrq id).setDescq id (qdmaDescqFreeResource (x.descq id)) := by
    unfold QdmaDev.descqCleanup
    simp only [hidle.inited, Bool.false_eq_true, if_false, hx]
    rw [hs.descq]
  obtain ⟨hl, hr, -⟩ := freeResource_life (d := x.descq id) (fun _ => congrArg (·.2.2) hidle.rings)
  have hfree : (qdmaDescqFreeResource (x.descq id)).Idle :=
    hidle.congr hl (hr.trans hidle.rings.symm)
  rw [heq]
  obtain ⟨h1, h2, h3⟩ := hs.unlinked hu
  refine ⟨keeps_idle hu hs hfree, ?_, h1, h2, h3⟩
  rw [setDescq_self]
  exact hfree

/-- **`qdma_queue_remove`** keeps the law if the queue is not running. -/
theorem QueueInv.remove {x : QdmaDev} {id : ℕ} (h : QueueInv x id) {ctxCleared : Bool}
    (hok : x.Has id → (x.descq id).online = false) :
    Keeps x (x.queueRemove id ctxCleared) id := by
  unfold QdmaDev.queueRemove
  by_cases hhas : x.Has id
  swap
  · rw [if_neg hhas]
    exact .refl h
  rw [if_pos hhas]
  have hoff := hok hhas
  rcases h with ⟨hidle, hu⟩ | ⟨hup, -⟩
  · simp only
    set x1 := x.setDescq id { x.descq id with inited := false, online := false } with hx1
    have hd1 : x1.descq id = { x.descq id with inited := false, online := false } :=
      setDescq_self ..
    have hidle1 : (x1.descq id).Idle := by
      rw [hd1]
      exact ⟨rfl, rfl, hidle.ctxValid, hidle.wrkthp, hidle.wbthp, hidle.rings⟩
    have hu1 : x1.Unlinked id := ⟨hu.wrk, hu.wb, hu.intr⟩
    obtain ⟨hk, hidle2, hu2⟩ := descqCleanup_keeps hidle1 hu1 ctxCleared
    generalize x1.descqCleanup id ctxCleared = x2 at hk hidle2 hu2 ⊢
    have hidle3 : ({ x2.descq id with enabled := false } : Descq).Idle :=
      ⟨hidle2.inited, hidle2.online, hidle2.ctxValid, hidle2.wrkthp, hidle2.wbthp, hidle2.rings⟩
    have hk3 := keeps_idle hu2 (.refl x2) hidle3
    generalize x2.setDescq id { x2.descq id with enabled := false } = x3 at hk3 ⊢
    have hs := sameLinks_uncount x3 (x3.descq id).conf.c2h
    refine ⟨?_, ?_, ?_⟩
    · exact (((elsewhere_setDescq x id _).trans hk.elsewhere).trans hk3.elsewhere).trans
        (hs.elsewhere id)
    · exact hk3.queue.sameLinks hs
    · exact ((hs.badUnlink.trans hk3.badUnlink).trans hk.badUnlink)
  · rw [hup.online] at hoff
    exact absurd hoff (by decide)

/-- **`qdma_queue_reconfig`** keeps the law: a running queue it leaves alone. -/
theorem QueueInv.reconfig {x : QdmaDev} {id : ℕ} (h : QueueInv x id) (qconf : QueueConf) :
    Keeps x (x.queueReconfig id qconf) id := by
  unfold QdmaDev.queueReconfig
  split_ifs with hhas
  swap
  · exact .refl h
  unfold descqReconfig
  rcases h with ⟨hidle, hu⟩ | ⟨hup, hlink⟩
  · split_ifs
    · exact keeps_idle hu (.refl x) hidle
    · exact keeps_idle hu (.refl x)
        ⟨hidle.inited, hidle.online, hidle.ctxValid, hidle.wrkthp, hidle.wbthp, hidle.rings⟩
  · rw [hup.inited, Bool.or_true, Bool.true_or, if_pos rfl]
    exact QueueInv.same_life (.inr ⟨hup, hlink⟩) rfl rfl rfl

/-! ## The device -/

/-- **The law of the device.** -/
structure DevInv (x : QdmaDev) : Prop where
  threads : 0 < x.threadCnt
  queue : ∀ id < 2 * x.qmax, QueueInv x id
  badUnlink : x.badUnlink = false

theorem DevInv.keeps {x x' : QdmaDev} {id : ℕ} (h : DevInv x) (hk : Keeps x x' id) :
    DevInv x' := by
  refine ⟨hk.elsewhere.threadCnt ▸ h.threads, fun id' hlt => ?_, hk.badUnlink.trans h.badUnlink⟩
  by_cases heq : id' = id
  · subst heq
    exact hk.queue
  · exact (h.queue id' (hk.elsewhere.qmax ▸ hlt)).elsewhere hk.elsewhere heq

theorem DevInv.sameLinks {x x' : QdmaDev} (h : DevInv x) (hs : SameLinks x x') : DevInv x' :=
  ⟨hs.threadCnt ▸ h.threads, fun id hlt => (h.queue id (hs.qmax ▸ hlt)).sameLinks hs,
    hs.badUnlink.trans h.badUnlink⟩

/-- A queue that does not exist is not looked at. -/
theorem DevInv.has {x : QdmaDev} {id : ℕ} (h : x.Has id) (hx : DevInv x) : QueueInv x id :=
  hx.queue id h.2.1

theorem sameLinks_count (x : QdmaDev) (c2h : Bool) : SameLinks x (x.count c2h) := by
  unfold QdmaDev.count
  split_ifs <;> exact ⟨rfl, rfl, rfl, rfl, rfl, rfl, rfl, rfl, rfl, rfl⟩

/-- The queue found is one of the device, and nobody uses it. -/
theorem findQueue_ok {x : QdmaDev} {qconf : QueueConf} {i : ℕ} (h : x.findQueue qconf = .ok i)
    (hq : ¬ (qconf.qidx ≠ qdmaQueueIdxInvalid ∧ qconf.qidx ≥ x.qmax)) :
    i < x.qmax ∧ x.modeClash qconf i = false ∧
      (x.descq (x.queueId qconf.c2h i)).enabled = false := by
  unfold QdmaDev.findQueue at h
  split_ifs at h with hauto hclash hen
  · -- the first queue that is free
    revert h
    cases hf : (List.range x.qmax).find? (fun i =>
        !x.modeClash qconf i && !(x.descq (x.queueId qconf.c2h i)).enabled) with
    | none => intro h; exact absurd h (by simp)
    | some j =>
        intro h
        obtain rfl : j = i := by simpa using h
        have hmem := List.mem_range.mp (List.mem_of_find?_eq_some hf)
        have hp := List.find?_some hf
        simp only [Bool.and_eq_true, Bool.not_eq_true'] at hp
        exact ⟨hmem, hp.1, hp.2⟩
  · -- the one asked for
    have hi : qconf.qidx = i := Except.ok.inj h
    subst hi
    have hlt : qconf.qidx < x.qmax := by
      by_contra hge
      exact hq ⟨hauto, Nat.le_of_not_lt hge⟩
    exact ⟨hlt, Bool.eq_false_iff.mpr hclash, Bool.eq_false_iff.mpr hen⟩

theorem queueId_lt {x : QdmaDev} {i : ℕ} (h : i < x.qmax) (c2h : Bool) :
    x.queueId c2h i < 2 * x.qmax := by
  unfold QdmaDev.queueId
  split_ifs <;> omega

theorem DevInv.queueClaim {x : QdmaDev} (h : DevInv x) (c : AddCall) {qconf : QueueConf}
    (hq : ¬ (qconf.qidx ≠ qdmaQueueIdxInvalid ∧ qconf.qidx ≥ x.qmax)) :
    DevInv (x.queueClaim c qconf).1 := by
  unfold QdmaDev.queueClaim
  cases hf : x.findQueue qconf with
  | error e =>
      simp only
      split_ifs
      · exact h
      · exact h.sameLinks (sameLinks_uncount x _)
  | ok i =>
      obtain ⟨hlt, -, hen⟩ := findQueue_ok hf hq
      obtain ⟨hidle, hu⟩ := (h.queue _ (queueId_lt hlt qconf.c2h)).idle hen
      simp only
      generalize x.queueId qconf.c2h i = id at hidle hu ⊢
      -- whether or not it stays in use, the queue is idle
      have hidle1 : ({ x.descq id with enabled := true } : Descq).Idle :=
        ⟨hidle.inited, hidle.online, hidle.ctxValid, hidle.wrkthp, hidle.wbthp, hidle.rings⟩
      have hk := keeps_idle hu (.refl x) hidle1
      by_cases hprep : c.prep < 0
      · rw [if_pos hprep]
        exact (h.keeps hk).sameLinks (sameLinks_uncount _ _)
      · rw [if_neg hprep]
        simp only [setDescq_self]
        set x1 := x.setDescq id { x.descq id with enabled := true }
        have hu1 : x1.Unlinked id := ⟨hu.wrk, hu.wb, hu.intr⟩
        have hidle2 : (qdmaDescqConfig { x.descq id with enabled := true }
            { qconf with qidx := i } false x1.numVecs).Idle :=
          ⟨hidle.inited, hidle.online, hidle.ctxValid, hidle.wrkthp, hidle.wbthp, hidle.rings⟩
        exact (h.keeps hk).keeps (keeps_idle hu1 (.refl x1) hidle2)

/-- So does a call that does not return. -/
theorem DevInv.fault {x : QdmaDev} (h : DevInv x) : DevInv x.fault.1 :=
  h.sameLinks ⟨rfl, rfl, rfl, rfl, rfl, rfl, rfl, rfl, rfl, rfl⟩

/-- **`qdma_queue_add`** keeps the law. -/
theorem DevInv.queueAdd {x : QdmaDev} (h : DevInv x) (c : AddCall) : DevInv (x.queueAdd c).1 := by
  unfold QdmaDev.queueAdd
  cases hq : c.qconf with
  | none => exact h
  | some qconf =>
      have hcnt := sameLinks_count x qconf.c2h
      simp only
      by_cases hidx : qconf.qidx ≠ qdmaQueueIdxInvalid ∧ qconf.qidx ≥ x.qmax
      · simp only [hidx, ne_eq, not_false_eq_true, and_self, if_true]
        split_ifs
        · exact h.fault
        · exact h
        · exact h
        · exact h.fault
        · exact h
      · have hclaim := (h.sameLinks hcnt).queueClaim c (hcnt.qmax.symm ▸ hidx)
        rw [if_neg hidx]
        by_cases hfull : (if qconf.c2h then x.c2hQcnt else x.h2cQcnt) ≥ x.qmax
        · rw [if_pos hfull]
          split_ifs
          · exact h.fault
          · exact h
          · exact h
          · exact h.fault
          · exact h
        · rw [if_neg hfull]
          split_ifs
          · exact h.fault
          · exact h
          · exact h
          · exact h.fault
          · exact hclaim

/-- A clean-up is called for: every queue in use may be stopped. -/
def CleanupOk (x : QdmaDev) (ctxCleared : ℕ → Bool) : Prop :=
  ∀ id < 2 * x.qmax, x.Has id → StopOk x id (ctxCleared id)

theorem Elsewhere.stopOk {x x' : QdmaDev} {id id' : ℕ} (he : Elsewhere x x' id) (hne : id' ≠ id)
    {ctxCleared : Bool} (h : x.Has id' → StopOk x id' ctxCleared) :
    x'.Has id' → StopOk x' id' ctxCleared := by
  unfold QdmaDev.Has StopOk
  rw [he.gone, he.qmax, he.descq id' hne, he.numVecs]
  exact h

/-- Stopping queues one after the other leaves them all idle. -/
theorem stopAll {ctxCleared : ℕ → Bool} (ids : List ℕ) (hnd : ids.Nodup) (x : QdmaDev)
    (h : DevInv x) (hgone : x.gone = false) (hids : ∀ id ∈ ids, id < 2 * x.qmax)
    (hok : ∀ id ∈ ids, x.Has id → StopOk x id (ctxCleared id)) :
    let x' := ids.foldl (fun x id => x.queueStop id (ctxCleared id)) x
    DevInv x' ∧ x'.gone = false ∧ x'.qmax = x.qmax ∧ (∀ id ∉ ids, x'.descq id = x.descq id) ∧
      ∀ id ∈ ids, (x'.descq id).Idle := by
  induction ids generalizing x with
  | nil => exact ⟨h, hgone, rfl, fun _ _ => rfl, fun _ hmem => absurd hmem (List.not_mem_nil)⟩
  | cons id ids ih =>
      obtain ⟨hnot, hnd'⟩ := List.nodup_cons.mp hnd
      have hid : id < 2 * x.qmax := hids id (.head _)
      obtain ⟨hk, hidle⟩ := (h.queue id hid).stop (hok id (.head _))
      rw [List.foldl_cons]
      have hfirst : ((x.queueStop id (ctxCleared id)).descq id).Idle := by
        by_cases hen : (x.descq id).enabled = true
        · exact hidle ⟨hgone, hid, hen⟩
        · have heq : x.queueStop id (ctxCleared id) = x := if_neg (fun hh => hen hh.2.2)
          rw [heq]
          exact ((h.queue id hid).idle (Bool.eq_false_iff.mpr hen)).1
      generalize x.queueStop id (ctxCleared id) = x1 at hk hfirst ⊢
      have hne : ∀ id' ∈ ids, id' ≠ id := fun id' hmem heq => hnot (heq ▸ hmem)
      obtain ⟨h1, h2, h3, h4, h5⟩ := ih hnd' x1 (h.keeps hk) (hk.elsewhere.gone.trans hgone)
        (fun id' hmem => hk.elsewhere.qmax.symm ▸ hids id' (.tail _ hmem))
        (fun id' hmem => hk.elsewhere.stopOk (hne id' hmem) (hok id' (.tail _ hmem)))
      refine ⟨h1, h2, h3.trans hk.elsewhere.qmax, fun id' hn => ?_, fun id' hmem => ?_⟩
      · have hn1 : id' ≠ id := fun heq => hn (heq ▸ .head _)
        exact (h4 id' (fun hm => hn (.tail _ hm))).trans (hk.elsewhere.descq id' hn1)
      · rcases List.mem_cons.mp hmem with rfl | hmem
        · rw [h4 _ hnot]
          exact hfirst
        · exact h5 id' hmem

/-- Cleaning idle queues up keeps them idle. -/
theorem cleanupAll (ctxCleared : ℕ → Bool) (ids : List ℕ) (x : QdmaDev) (h : DevInv x)
    (hidle : ∀ id < 2 * x.qmax, (x.descq id).Idle) (hids : ∀ id ∈ ids, id < 2 * x.qmax) :
    DevInv (ids.foldl (fun x id => x.descqCleanup id (ctxCleared id)) x) := by
  induction ids generalizing x with
  | nil => exact h
  | cons id ids ih =>
      have hid := hids id (.head _)
      have hu : x.Unlinked id := by
        rcases h.queue id hid with ⟨-, hu⟩ | ⟨hup, -⟩
        · exact hu
        · have hoff := (hidle id hid).online
          rw [hup.online] at hoff
          exact absurd hoff (by decide)
      obtain ⟨hk, hidle', -⟩ := descqCleanup_keeps (hidle id hid) hu (ctxCleared id)
      rw [List.foldl_cons]
      have hq := hk.elsewhere.qmax
      refine ih _ (h.keeps hk) (fun id' hlt => ?_) (fun id' hmem => hq.symm ▸ hids id' (.tail _ hmem))
      by_cases heq : id' = id
      · subst heq
        exact hidle'
      · rw [hk.elsewhere.descq id' heq]
        exact hidle id' (hq ▸ hlt)

/-- Nor does it ask for `qdev`. -/
theorem QueueInv.free {x : QdmaDev} {id : ℕ} (h : QueueInv x id) :
    QueueInv { x with gone := true } id := by
  rcases h with ⟨hidle, hu⟩ | ⟨hup, hlink⟩
  · exact .inl ⟨hidle, hu.wrk, hu.wb, hu.intr⟩
  · exact .inr ⟨hup, hlink.wrk, hlink.polled, hlink.vector⟩

/-- **`qdma_device_cleanup`** keeps the law. -/
theorem DevInv.deviceCleanup {x : QdmaDev} (h : DevInv x) {ctxCleared : ℕ → Bool}
    (hok : CleanupOk x ctxCleared) : DevInv (x.deviceCleanup ctxCleared) := by
  unfold QdmaDev.deviceCleanup
  cases hg : x.gone with
  | true => exact h
  | false =>
      have hrange : ∀ id ∈ List.range (2 * x.qmax), id < 2 * x.qmax := fun _ => List.mem_range.mp
      obtain ⟨h1, h2, h3, -, h5⟩ := stopAll (List.range (2 * x.qmax)) List.nodup_range x h hg
        hrange (fun id hmem => hok id (hrange id hmem))
      have h6 := cleanupAll ctxCleared (List.range (2 * x.qmax)) _ h1
        (fun id hlt => h5 id (List.mem_range.mpr (h3 ▸ hlt))) (fun id hmem => h3.symm ▸ hrange id hmem)
      exact ⟨h6.threads, fun id hlt => (h6.queue id hlt).free, h6.badUnlink⟩

/-! ## Runs -/

/-- One call, with the answers it gets; or the threads are given other queues to serve, of
other devices. -/
inductive DevOp where
  | add (c : AddCall)
  | reconfig (id : ℕ) (qconf : QueueConf)
  | start (id : ℕ) (env : StartEnv)
  | stop (id : ℕ) (ctxCleared : Bool)
  | remove (id : ℕ) (ctxCleared : Bool)
  | cleanup (ctxCleared : ℕ → Bool)
  | others (wrk wb : ℕ → Kthread)

/-- What it does to the device. -/
def QdmaDev.step (x : QdmaDev) : DevOp → QdmaDev
  | .add c => (x.queueAdd c).1
  | .reconfig id qconf => x.queueReconfig id qconf
  | .start id env => (x.queueStart id env).1
  | .stop id ctxCleared => x.queueStop id ctxCleared
  | .remove id ctxCleared => x.queueRemove id ctxCleared
  | .cleanup ctxCleared => x.deviceCleanup ctxCleared
  | .others wrk wb => { x with wrk := wrk, wb := wb }

/-- Other devices leave the queues of this one where they are. -/
def OthersOk (x : QdmaDev) (wrk wb : ℕ → Kthread) : Prop :=
  ∀ id < 2 * x.qmax, ∀ j, (wrk j).workList.count id = (x.wrk j).workList.count id ∧
    (wb j).workList.count id = (x.wb j).workList.count id

/-- Any call, at any time. -/
def DevLegal (x : QdmaDev) : DevOp → Prop
  | .others wrk wb => OthersOk x wrk wb
  | _ => True

/-- **The calls that keep the life cycle**: a queue is stopped in interrupt mode only while it
is online, and removed only while it is not; a start that cannot read the CSR tables finds a
queue that is not initialized; the device clears the contexts it is asked to clear, and has a
vector for data in interrupt mode. -/
def LifeLegal (x : QdmaDev) : DevOp → Prop
  | .start id env => x.Has id → StartOk x id env
  | .stop id ctxCleared => x.Has id → StopOk x id ctxCleared
  | .remove id _ => x.Has id → (x.descq id).online = false
  | .cleanup ctxCleared => CleanupOk x ctxCleared
  | op => DevLegal x op

/-- **The law of the device** under one step. -/
theorem DevInv.step {x : QdmaDev} (h : DevInv x) {op : DevOp} (hok : LifeLegal x op) :
    DevInv (x.step op) := by
  -- a call on a queue that is not there does nothing
  have hone : ∀ {id : ℕ} {x' : QdmaDev}, (¬ x.Has id → x' = x) →
      (QueueInv x id → Keeps x x' id) → DevInv x' := by
    intro id x' hno hyes
    by_cases hhas : x.Has id
    · exact h.keeps (hyes (DevInv.has hhas h))
    · rw [hno hhas]
      exact h
  cases op with
  | add c => exact h.queueAdd c
  | reconfig id qconf => exact hone (fun hno => if_neg hno) (fun hq => hq.reconfig qconf)
  | start id env =>
      have hno : ¬ x.Has id → x.step (.start id env) = x :=
        fun hno => congrArg Prod.fst (if_neg hno)
      exact hone hno (fun hq => hq.start h.threads hok)
  | stop id ctxCleared => exact hone (fun hno => if_neg hno) (fun hq => (hq.stop hok).1)
  | remove id ctxCleared => exact hone (fun hno => if_neg hno) (fun hq => hq.remove hok)
  | cleanup ctxCleared => exact h.deviceCleanup hok
  | others wrk wb =>
      refine ⟨h.threads, fun id hlt => ?_, h.badUnlink⟩
      have hwrk : ∀ j, (wrk j).workList.count id = (x.wrkLists j).count id :=
        fun j => (hok id hlt j).1
      have hwb : ∀ j, (wb j).workList.count id = (x.wbLists j).count id :=
        fun j => (hok id hlt j).2
      rcases h.queue id hlt with ⟨hidle, hu⟩ | ⟨hup, hlink⟩
      · exact .inl ⟨hidle, hu.wrk.congr hwrk, hu.wb.congr hwb, hu.intr⟩
      · refine .inr ⟨hup, ?_, fun h0 => ?_, fun h0 => ?_⟩
        · obtain ⟨i, hi, hthp, hon⟩ := hlink.wrk
          exact ⟨i, hi, hthp, hon.congr hwrk⟩
        · obtain ⟨hoff, j, hj, hthp, hon⟩ := hlink.polled h0
          exact ⟨hoff, j, hj, hthp, hon.congr hwb⟩
        · obtain ⟨hon, hthp, hoff⟩ := hlink.vector h0
          exact ⟨hon, hthp, hoff.congr hwb⟩

/-- What holds of a queue between two calls. -/
structure QueueLife (x : QdmaDev) (id : ℕ) : Prop where
  online : (x.descq id).online = true → (x.descq id).inited = true
  inited : (x.descq id).inited = true → (x.descq id).enabled = true
  linked : (x.descq id).online = true → x.Linked id
  unlinked : (x.descq id).online = false → x.Unlinked id
  allRings : (x.descq id).inited = true → (x.descq id).AllRings
  noRings : (x.descq id).inited = false → (x.descq id).NoRings
  ctxValid : (x.descq id).ctxValid = true → (x.descq id).inited = true

theorem QueueInv.life {x : QdmaDev} {id : ℕ} (h : QueueInv x id) : QueueLife x id := by
  have hno : ¬ (false = true) := by decide
  rcases h with ⟨hidle, hu⟩ | ⟨hup, hlink⟩
  · refine ⟨?_, ?_, ?_, fun _ => hu, ?_, fun _ => hidle.rings, ?_⟩
    · rw [hidle.online]
      exact fun hf => absurd hf hno
    · rw [hidle.inited]
      exact fun hf => absurd hf hno
    · rw [hidle.online]
      exact fun hf => absurd hf hno
    · rw [hidle.inited]
      exact fun hf => absurd hf hno
    · rw [hidle.ctxValid]
      exact fun hf => absurd hf hno
  · refine ⟨fun _ => hup.inited, fun _ => hup.enabled, fun _ => hlink, ?_, fun _ => hup.rings, ?_,
      fun _ => hup.inited⟩
    · rw [hup.online]
      exact fun hf => absurd hf.symm hno
    · rw [hup.inited]
      exact fun hf => absurd hf.symm hno

/-- **The life cycle** of all queues, and no node unlinked that was not linked. -/
def LifeLaw (x : QdmaDev) : Prop := x.badUnlink = false ∧ ∀ id < 2 * x.qmax, QueueLife x id

/-- A device that is set up: no queue has been added. -/
structure FreshDev (x : QdmaDev) : Prop where
  threads : 0 < x.threadCnt
  idle : ∀ id < 2 * x.qmax, (x.descq id).Idle
  disabled : ∀ id < 2 * x.qmax, (x.descq id).enabled = false
  unlinked : ∀ id < 2 * x.qmax, x.Unlinked id
  badUnlink : x.badUnlink = false

/-- **The life cycle of the queues** holds after any run of such calls. -/
theorem queue_life_cycle {x₀ x : QdmaDev} {ops : List DevOp} (hf : FreshDev x₀)
    (hr : Run QdmaDev.step LifeLegal x₀ ops x) : LifeLaw x := by
  have h : DevInv x := by
    refine hr.invariant ⟨hf.threads, fun id hlt => ?_, hf.badUnlink⟩ (fun x op hx hok => hx.step hok)
    exact .inl ⟨hf.idle id hlt, hf.unlinked id hlt⟩
  exact ⟨h.badUnlink, fun id hlt => (h.queue id hlt).life⟩

/-- A device with one queue pair and one thread. -/
def pairDev (numVecs : ℕ) : QdmaDev where
  qmax := 1
  numVecs := numVecs
  dvecStartIdx := 1
  intrCoalEn := false
  threadCnt := 1
  descq := fun _ => {}
  wrk := fun _ => {}
  wb := fun _ => {}
  intrList := fun _ => []
  intrListCnt := fun _ => 0

theorem pairDev_fresh (numVecs : ℕ) : FreshDev (pairDev numVecs) :=
  ⟨Nat.one_pos, fun _ _ => ⟨rfl, rfl, rfl, rfl, rfl, rfl⟩, fun _ _ => rfl,
    fun _ _ => ⟨fun _ => rfl, fun _ => rfl, fun _ => rfl⟩, rfl⟩

/-- Everything goes well. -/
def workingStart : StartEnv where
  csr := some { ringSz := fun _ => 8, c2hBufSz := fun _ => 4096 }
  alloc := { desc := true, wrb := true, sdesc := true, fill := fun i => .ok i i }
  irq := none
  ctx := .ok
  ctxCleared := true

theorem workingStart_ok {x : QdmaDev} {id : ℕ} (h0 : x.numVecs = 0) : StartOk x id workingStart := by
  refine ⟨fun h => ?_, fun h => ?_, fun hne => absurd h0 hne⟩
  · exact absurd h (Option.some_ne_none _)
  · exact absurd h (by simp [workingStart])

/-- An H2C queue is added, started, stopped and removed, in polled mode. -/
theorem queue_life_cycle_once : LifeLaw
    ([.add { qconf := some {} }, .start 0 workingStart, .stop 0 true, .remove 0 true].foldl
      QdmaDev.step (pairDev 0)) := by
  rw [List.foldl_cons, List.foldl_cons, List.foldl_cons, List.foldl_cons, List.foldl_nil]
  refine queue_life_cycle (pairDev_fresh 0) ((((Run.nil.snoc ?_).snoc ?_).snoc ?_).snoc ?_)
  · trivial
  · exact fun _ => workingStart_ok (by decide +kernel)
  · exact fun _ => ⟨by decide +kernel, fun _ => rfl⟩
  · show _ → _
    exact by decide +kernel

/-- **The life cycle is not kept**: a queue stopped twice in interrupt mode is unlinked twice,
and one removed while it is online stays on the work list, with its context valid. -/
theorem life_cycle_broken :
    (∃ ops x, Run QdmaDev.step DevLegal (pairDev 8) ops x ∧ x.badUnlink = true ∧ ¬ LifeLaw x) ∧
    ∃ ops x, Run QdmaDev.step DevLegal (pairDev 0) ops x ∧ (x.wrk 0).workList = [0] ∧
      (x.descq 0).inited = false ∧ (x.descq 0).ctxValid = true ∧ ¬ LifeLaw x := by
  constructor
  · set ops : List DevOp :=
      [.add { qconf := some {} }, .start 0 workingStart, .stop 0 true, .stop 0 true]
    have hbad : (ops.foldl QdmaDev.step (pairDev 8)).badUnlink = true := by decide +kernel
    refine ⟨ops, _, (((Run.nil.snoc trivial).snoc trivial).snoc trivial).snoc trivial, hbad, ?_⟩
    intro h
    have hno : true = false := hbad.symm.trans h.1
    exact absurd hno (by decide)
  · set ops : List DevOp := [.add { qconf := some {} }, .start 0 workingStart, .remove 0 true]
    have hlist : ((ops.foldl QdmaDev.step (pairDev 0)).wrk 0).workList = [0] := by decide +kernel
    have hin : ((ops.foldl QdmaDev.step (pairDev 0)).descq 0).inited = false := by decide +kernel
    have hctx : ((ops.foldl QdmaDev.step (pairDev 0)).descq 0).ctxValid = true := by decide +kernel
    have hq : 0 < 2 * (ops.foldl QdmaDev.step (pairDev 0)).qmax := by decide +kernel
    refine ⟨ops, _, ((Run.nil.snoc trivial).snoc trivial).snoc trivial, hlist, hin, hctx, ?_⟩
    intro h
    have hno : false = true := hin.symm.trans ((h.2 0 hq).ctxValid hctx)
    exact absurd hno (by decide)

end Qdma
