/-
# The pages of an ST C2H queue

Every slot of the free list holds a page and its mapping.  `qdma_descq_alloc_resource` fills the
slots, `qdma_descq_free_resource` empties them, and `qdma_flq_refill` replaces the page of a slot
when the queue has a packet handler.  The log has every page that is allocated or freed and every
mapping that is made or undone, and `PagesLaw` says that what is outstanding is what the slots
hold.

`rx_pages_kept` says in which runs the law holds; `rx_page_lost` has a refill that replaces a page,
after which nobody releases the old one.
-/
import Qdma.LockTrace
import Qdma.RxFrame
import Qdma.Exec
import Qdma.Setup

namespace Qdma

open LockTrace Exec

/-! ## Pages and mappings -/

/-- The driver's reference on a page, or a mapping at a bus address. -/
inductive PgRes where
  | page (pg : ℕ)
  | mapping (addr : ℕ)
  deriving DecidableEq

/-- What the kernel answers when a page is allocated and mapped. -/
inductive PageAnswer where
  | ok (pg dmaAddr : ℕ)
  | noMem
  | mapErr (pg : ℕ)

/-- What `flq_fill_one` makes of it. -/
def PageAnswer.fill : PageAnswer → FillOutcome
  | .ok pg dmaAddr => .ok pg dmaAddr
  | .noMem => .noMem
  | .mapErr _ => .mapErr

/-- The page is there and mapped. -/
def PageAnswer.isOk : PageAnswer → Bool
  | .ok _ _ => true
  | _ => false

/-- A mapping that is made is not at bus address 0. -/
def PageAnswer.Nonzero : PageAnswer → Prop
  | .ok _ dmaAddr => dmaAddr ≠ 0
  | _ => True

instance (a : PageAnswer) : Decidable a.Nonzero := by
  cases a with
  | ok _ dmaAddr => exact inferInstanceAs (Decidable (dmaAddr ≠ 0))
  | noMem => exact inferInstanceAs (Decidable True)
  | mapErr _ => exact inferInstanceAs (Decidable True)

/-! ## What each function takes and releases -/

/-- `flq_unmap_one`. -/
def flqUnmapOneLog (s : FlSdesc) : List (Op PgRes) :=
  if s.dmaAddr ≠ 0 then [.unlock (.mapping s.dmaAddr)] else []

/-- `flq_free_one`. -/
def flqFreeOneLog (s : FlSdesc) : List (Op PgRes) :=
  match s.pg with
  | none => []
  | some pg => flqUnmapOneLog s ++ [.unlock (.page pg)]

/-- `flq_fill_one`. -/
def flqFillOneLog : PageAnswer → List (Op PgRes)
  | .ok pg dmaAddr => [.lock (.page pg)] ++ [.lock (.mapping dmaAddr)]
  | .noMem => []
  | .mapErr pg => [.lock (.page pg)] ++ [.unlock (.page pg)]

/-- `descq_flq_free_resource`. -/
def flqFreeLog (q : Flq) : List (Op PgRes) :=
  (List.range q.size).flatMap (fun i => flqFreeOneLog (q.sdesc i))

/-- The fill loop of `descq_flq_alloc_resource`. -/
def flqFillFromLog (page : ℕ → PageAnswer) : ℕ → ℕ → List (Op PgRes)
  | 0, _ => []
  | n + 1, i =>
      flqFillOneLog (page i) ++ if (page i).isOk then flqFillFromLog page n (i + 1) else []

/-- The answers to the allocations of one `qdma_descq_alloc_resource`. -/
structure AllocAnswers where
  desc : Bool := true
  wrb : Bool := true
  sdesc : Bool := true
  page : ℕ → PageAnswer

/-- Those the queue looks at. -/
def AllocAnswers.env (a : AllocAnswers) : AllocEnv :=
  { desc := a.desc, wrb := a.wrb, sdesc := a.sdesc, fill := fun i => (a.page i).fill }

/-- The free list with an array of slots. -/
def Descq.newSdesc (d : Descq) : Descq :=
  { d with flq :=
      { d.flq with sdescAlloc := true, sdesc := fun _ => {}, sdescInfo := fun _ => {} } }

/-- `descq_flq_alloc_resource`. -/
def flqAllocLog (d : Descq) (a : AllocAnswers) : List (Op PgRes) :=
  if a.sdesc then
    let (d', rv) := flqFillFrom a.env.fill d.flq.size 0 d.newSdesc
    flqFillFromLog a.page d.flq.size 0 ++ if rv < 0 then flqFreeLog d'.flq else []
  else []

/-- `qdma_descq_free_resource`. -/
def freeResourceLog (d : Descq) : List (Op PgRes) :=
  if d.descWrb.alloc then flqFreeLog d.flq else []

/-- The queue with its rings, before its free list. -/
def Descq.withWrb (d : Descq) : Descq :=
  { wrbRingAlloc (descRingAlloc d) with descWrb := { alloc := true }, descWrbCur := 0 }

/-- `qdma_descq_alloc_resource`. -/
def allocResourceLog (d : Descq) (a : AllocAnswers) : List (Op PgRes) :=
  if a.desc then
    if d.conf.st && d.conf.c2h then
      if a.wrb then
        let (d', rv) := descqFlqAllocResource d.withWrb a.sdesc a.env.fill
        flqAllocLog d.withWrb a ++ if rv < 0 then freeResourceLog d' else []
      else freeResourceLog (wrbRingAlloc (descRingAlloc d))
    else []
  else freeResourceLog d

/-- The answers one `qdma_queue_start` gets. -/
structure StartAnswers where
  csr : Option GlobalCsrConf
  alloc : AllocAnswers
  irq : Option ℕ := none
  ctx : CtxOutcome := .ok
  ctxCleared : Bool := true

/-- Those the queue looks at. -/
def StartAnswers.env (a : StartAnswers) : StartEnv :=
  { csr := a.csr, alloc := a.alloc.env, irq := a.irq, ctx := a.ctx, ctxCleared := a.ctxCleared }

/-- `qdma_queue_start` after its check of the flags. -/
def bringUpLog (d : Descq) (a : StartAnswers) : List (Op PgRes) :=
  let (d', rv) := qdmaDescqAllocResource d.markInited a.alloc.env a.irq
  allocResourceLog d.markInited a.alloc ++
    if rv < 0 then freeResourceLog d'
    else
      let (d', rv) := qdmaDescqProgHw d' a.ctx
      if rv < 0 then freeResourceLog d' else []

/-- `qdma_queue_start`. -/
def startLog (d : Descq) (a : StartAnswers) : List (Op PgRes) :=
  match a.csr with
  | none => freeResourceLog d
  | some csr =>
      let d := qdmaDescqConfigComplete d csr
      if !d.enabled || d.inited || d.online then [] else bringUpLog d a

/-- `qdma_flq_refill`, for `count` buffers from `idx` on. -/
def flqRefillLog (page : ℕ → PageAnswer) (recycle : Bool) : ℕ → ℕ → Descq → List (Op PgRes)
  | 0, _, _ => []
  | count + 1, idx, d =>
      let idx := if idx = d.flq.size then 0 else idx
      if recycle then
        flqRefillLog page recycle count (idx + 1) ((d.setFlq (d.flq.recycle idx)).refilled idx)
      else
        let (d', rv) := flqFillOne (flqUnmapOne d idx) idx (page idx).fill
        flqUnmapOneLog (d.flq.sdesc idx) ++ (flqFillOneLog (page idx) ++
          if rv < 0 then [] else flqRefillLog page recycle count (idx + 1) (d'.refilled idx))

/-- The refill of a service call. -/
def procRefillLog (d : Descq) (pidxPend : ℕ) (page : ℕ → PageAnswer) : List (Op PgRes) :=
  if d.flq.pidxPend ≠ pidxPend then
    flqRefillLog page d.conf.fpDescqC2hPacket.isNone
      (ringIdxDelta d.flq.pidxPend pidxPend d.flq.size) pidxPend d
  else []

/-- Its end. -/
def procEndLog (p : Proc) (pidxWrb pidxPend : ℕ) (page : ℕ → PageAnswer) : List (Op PgRes) :=
  if p.procCnt ≠ 0 then
    let d := { p.d with pidxWrb := pidxWrb, pidx := p.pidx }
    procRefillLog (if d.conf.fpDescqC2hPacket.isNone then qdmaC2hPacketsProcDflt d else d) pidxPend
      page
  else []

/-- `descq_process_completion_st_c2h`. -/
def serviceLog (d : Descq) (budget : ℤ) (page : ℕ → PageAnswer) : List (Op PgRes) :=
  if d.err then []
  else if d.conf.fpDescqC2hPacket.isNone && d.pendList.isEmpty && d.workList.isEmpty then []
  else
    let pend := ringIdxDelta d.descWrb.wbPidx d.cidxWrb d.conf.rngszWrb
    if pend = 0 then []
    else
      let p := procLoop (procBudget budget pend) { d := d, pidx := d.pidx }
      match p.ret with
      | some _ => []
      | none => procEndLog p d.descWrb.wbPidx d.flq.pidxPend page

/-! ## Runs -/

/-- A queue, and its log. -/
structure RxPages where
  d : Descq
  log : List (Op PgRes) := []

/-- A call.  `other` is one that leaves the free list and the state of the queue alone. -/
inductive PagesOp where
  | start (a : StartAnswers)
  | stop (ctxCleared : Bool)
  | cleanup (ctxCleared : Bool)
  | service (budget : ℤ) (page : ℕ → PageAnswer)
  | read (cb : SgtReqCb) (updatePidx refill : Bool)
  | other (d : Descq)

/-- What it takes and releases. -/
def PagesOp.log (d : Descq) : PagesOp → List (Op PgRes)
  | .start a => startLog d a
  | .stop _ => freeResourceLog d
  | .cleanup _ => freeResourceLog d
  | .service budget page => serviceLog d budget page
  | .read _ _ _ => []
  | .other _ => []

/-- `qdma_descq_cleanup`, on the queue itself. -/
def Descq.cleanup (d : Descq) (ctxCleared : Bool) : Descq :=
  qdmaDescqFreeResource
    (if d.inited then qdmaDescqContextClear { d with inited := false, online := false } ctxCleared
    else d)

/-- The queue after it. -/
def PagesOp.next (d : Descq) : PagesOp → Descq
  | .start a => (descqStart d a.env).1
  | .stop ctxCleared => descqStop d ctxCleared
  | .cleanup ctxCleared => d.cleanup ctxCleared
  | .service budget page => (descqProcessCompletionStC2h d budget (fun i => (page i).fill)).1
  | .read cb updatePidx refill => (descqStC2hRead d cb updatePidx refill).1
  | .other d' => d'

/-- A step of a run. -/
def RxPages.step (s : RxPages) (o : PagesOp) : RxPages :=
  { d := o.next s.d, log := s.log ++ o.log s.d }

/-- The pages and the mappings of a free list. -/
def Flq.pages (q : Flq) : ℕ × (ℕ → Option ℕ × ℕ) :=
  (q.size, fun i => ((q.sdesc i).pg, (q.sdesc i).dmaAddr))

/-- **The calls that keep the pages.**  The kernel gives out no page and no bus address that is in
use, and maps no page at address 0; and a service call of a queue with a packet handler gets no
page for the first slot it refills, so that it replaces none. -/
def PagesLegal (s : RxPages) (o : PagesOp) : Prop :=
  FreshFrom s.log (o.log s.d) ∧
    match o with
    | .start a => ∀ i, (a.alloc.page i).Nonzero
    | .service _ page => s.d.conf.fpDescqC2hPacket = none ∨
        (page (if s.d.flq.pidxPend = s.d.flq.size then 0 else s.d.flq.pidxPend)).isOk = false
    | .other d => d.flq.pages = s.d.flq.pages ∧ d.inited = s.d.inited ∧
        d.descWrb.alloc = s.d.descWrb.alloc
    | _ => True

/-- What a slot holds. -/
def FlSdesc.held (s : FlSdesc) : List PgRes :=
  (if s.dmaAddr ≠ 0 then [.mapping s.dmaAddr] else []) ++ s.pg.toList.map .page

/-- What the slots hold. -/
def Flq.held (q : Flq) : List PgRes := (List.range q.size).flatMap (fun i => (q.sdesc i).held)

/-- **The law of the pages.**  Nothing is released twice or given out twice, and the references
and the mappings that are outstanding are those of the slots, each of one slot; when the free list
is freed nothing is left. -/
structure PagesLaw (s : RxPages) : Prop where
  slots : Outstanding s.log s.d.flq.held
  once : s.d.flq.held.Nodup
  freed : s.d.descWrb.alloc = false → Balanced s.log

/-- A queue that has not been started. -/
structure NewRx (d : Descq) : Prop where
  flq : d.flq = {}
  descWrb : d.descWrb.alloc = false
  inited : d.inited = false

/-! ## The slots -/

/-- A slot without a page has no mapping. -/
def FlSdesc.Paged (s : FlSdesc) : Prop := s.pg = none → s.dmaAddr = 0

/-- A slot without either. -/
def FlSdesc.Empty (s : FlSdesc) : Prop := s.pg = none ∧ s.dmaAddr = 0

theorem FlSdesc.Empty.paged {s : FlSdesc} (h : s.Empty) : s.Paged := fun _ => h.2

theorem FlSdesc.Empty.held {s : FlSdesc} (h : s.Empty) : s.held = [] := by
  unfold FlSdesc.held
  rw [h.1, h.2]
  rfl

/-- What the other slots hold. -/
def Flq.heldBut (q : Flq) (i : ℕ) : List PgRes :=
  ((List.range q.size).erase i).flatMap (fun j => (q.sdesc j).held)

theorem Flq.held_perm (q : Flq) {i : ℕ} (hi : i < q.size) :
    q.held.Perm ((q.sdesc i).held ++ q.heldBut i) :=
  (List.perm_cons_erase (List.mem_range.mpr hi)).flatMap_right _

theorem Flq.heldBut_set (q : Flq) (i : ℕ) (s : FlSdesc) :
    (q.setSdesc i s).heldBut i = q.heldBut i := by
  refine List.flatMap_congr ?_
  intro j hj
  have hne : j ≠ i := fun h => (List.nodup_range.mem_erase_iff.mp hj).1 h
  exact congrArg FlSdesc.held (Function.update_of_ne hne _ _)

/-- One slot is changed. -/
theorem Flq.held_set (q : Flq) {i : ℕ} (hi : i < q.size) (s : FlSdesc) :
    (q.setSdesc i s).held.Perm (s.held ++ q.heldBut i) := by
  refine (Flq.held_perm (q.setSdesc i s) hi).trans ?_
  rw [Flq.heldBut_set, show (q.setSdesc i s).sdesc i = s from Function.update_self ..]

theorem Flq.held_congr {q q' : Flq} (h : q'.pages = q.pages) : q'.held = q.held := by
  have hsize : q'.size = q.size := congrArg Prod.fst h
  unfold Flq.held
  rw [hsize]
  refine List.flatMap_congr ?_
  intro i _
  have hi : ((q'.sdesc i).pg, (q'.sdesc i).dmaAddr) = ((q.sdesc i).pg, (q.sdesc i).dmaAddr) :=
    congrFun (congrArg Prod.snd h) i
  unfold FlSdesc.held
  rw [show (q'.sdesc i).pg = (q.sdesc i).pg from congrArg Prod.fst hi,
    show (q'.sdesc i).dmaAddr = (q.sdesc i).dmaAddr from congrArg Prod.snd hi]

/-- A slot that is freed gives up what it holds. -/
theorem FlSdesc.Paged.freeOne {s : FlSdesc} (h : s.Paged) :
    flqFreeOneLog s = s.held.map .unlock := by
  unfold flqFreeOneLog flqUnmapOneLog FlSdesc.held
  cases hpg : s.pg with
  | none =>
      rw [h hpg]
      rfl
  | some pg =>
      by_cases ha : s.dmaAddr ≠ 0
      · simp only [if_pos ha]
        rfl
      · simp only [if_neg ha]
        rfl

theorem flqFreeLog_eq {q : Flq} (h : ∀ i, (q.sdesc i).Paged) :
    flqFreeLog q = q.held.map .unlock := by
  unfold flqFreeLog Flq.held
  rw [List.map_flatMap]
  refine List.flatMap_congr ?_
  intro i _
  exact (h i).freeOne

/-! ## One queue -/

/-- The log is that of the slots, and only slots of the ring hold anything. -/
structure PagesOk (log : List (Op PgRes)) (d : Descq) : Prop where
  slots : Outstanding log d.flq.held
  paged : ∀ i, (d.flq.sdesc i).Paged
  beyond : ∀ i, d.flq.size ≤ i → (d.flq.sdesc i).Empty
  empty : d.descWrb.alloc = false → ∀ i, (d.flq.sdesc i).Empty

/-- Functions that leave the pages alone. -/
theorem PagesOk.congr {log : List (Op PgRes)} {d d' : Descq} (h : PagesOk log d)
    (hp : d'.flq.pages = d.flq.pages) (hw : d'.descWrb.alloc = d.descWrb.alloc) :
    PagesOk log d' := by
  have hsize : d'.flq.size = d.flq.size := congrArg Prod.fst hp
  have hslot : ∀ i, (d'.flq.sdesc i).pg = (d.flq.sdesc i).pg ∧
      (d'.flq.sdesc i).dmaAddr = (d.flq.sdesc i).dmaAddr := by
    intro i
    have hi := congrFun (congrArg Prod.snd hp) i
    exact ⟨congrArg Prod.fst hi, congrArg Prod.snd hi⟩
  have hempty : ∀ i, (d.flq.sdesc i).Empty → (d'.flq.sdesc i).Empty := by
    rintro i ⟨h₁, h₂⟩
    exact ⟨(hslot i).1.trans h₁, (hslot i).2.trans h₂⟩
  constructor
  · rw [Flq.held_congr hp]
    exact h.slots
  · intro i hpg
    exact (hslot i).2.trans (h.paged i ((hslot i).1.symm.trans hpg))
  · intro i hi
    exact hempty i (h.beyond i (hsize ▸ hi))
  · intro hfree i
    exact hempty i (h.empty (hw.symm.trans hfree) i)

/-- **`descq_flq_free_resource`** releases what the slots hold. -/
theorem PagesOk.freeFlq {log : List (Op PgRes)} {d : Descq} (h : PagesOk log d) :
    Outstanding (log ++ flqFreeLog d.flq) [] := by
  rw [flqFreeLog_eq h.paged]
  refine Outstanding.unlocks ?_
  rw [List.append_nil]
  exact h.slots

theorem Flq.held_nil {q : Flq} (h : ∀ i, (q.sdesc i).Empty) : q.held = [] := by
  unfold Flq.held
  rw [List.flatMap_eq_nil_iff]
  intro i _
  exact (h i).held

/-- Nothing is outstanding, and the slots are empty. -/
theorem pagesOk_empty {log : List (Op PgRes)} {d : Descq} (h : Outstanding log [])
    (hempty : ∀ i, (d.flq.sdesc i).Empty) : PagesOk log d := by
  refine ⟨?_, fun i => (hempty i).paged, fun i _ => hempty i, fun _ => hempty⟩
  rw [Flq.held_nil hempty]
  exact h

theorem freeResource_flq (d : Descq) :
    (qdmaDescqFreeResource d).flq = (if d.descWrb.alloc then {} else d.flq) ∧
      (qdmaDescqFreeResource d).descWrb.alloc = false ∧
      (qdmaDescqFreeResource d).inited = d.inited := by
  unfold qdmaDescqFreeResource
  cases hd : d.desc.alloc with
  | true => cases hw : d.descWrb.alloc <;> simp [hw, descqFlqFreeResource]
  | false => cases hw : d.descWrb.alloc <;> simp [hw, descqFlqFreeResource]

/-- **`qdma_descq_free_resource`.** -/
theorem PagesOk.free {log : List (Op PgRes)} {d : Descq} (h : PagesOk log d) :
    PagesOk (log ++ freeResourceLog d) (qdmaDescqFreeResource d) := by
  obtain ⟨hflq, halloc, -⟩ := freeResource_flq d
  unfold freeResourceLog
  cases hw : d.descWrb.alloc with
  | true =>
      rw [hw, if_pos rfl] at hflq
      refine pagesOk_empty h.freeFlq (fun i => ?_)
      rw [hflq]
      exact ⟨rfl, rfl⟩
  | false =>
      rw [hw, if_neg Bool.false_ne_true] at hflq
      rw [if_neg Bool.false_ne_true, List.append_nil]
      exact h.congr (congrArg Flq.pages hflq) (halloc.trans hw.symm)

/-! ## Filling the slots -/

/-- **`flq_fill_one`** on a slot that holds nothing. -/
theorem fillOne_held {log : List (Op PgRes)} {d : Descq} {i : ℕ} {a : PageAnswer}
    (h : Outstanding log d.flq.held) (hi : i < d.flq.size) (he : (d.flq.sdesc i).Empty)
    (hfresh : FreshFrom log (flqFillOneLog a)) (ha : a.Nonzero) :
    Outstanding (log ++ flqFillOneLog a) (flqFillOne d i a.fill).1.flq.held := by
  cases a with
  | noMem =>
      rw [flqFillOneLog, List.append_nil]
      exact h
  | mapErr pg =>
      rw [flqFillOneLog, ← List.append_assoc]
      exact (h.lock (hfresh.not_mem h)).unlock
  | ok pg addr =>
      rw [flqFillOneLog, ← List.append_assoc]
      have hpage := h.lock (hfresh.not_mem h)
      rw [flqFillOneLog, FreshFrom.append_iff] at hfresh
      refine (hpage.lock (hfresh.2.not_mem hpage)).of_perm ?_
      have hbut : d.flq.held.Perm (d.flq.heldBut i) := by
        refine (Flq.held_perm d.flq hi).trans ?_
        rw [he.held, List.nil_append]
      have hnew : (FlSdesc.mk (some pg) addr 0 d.flq.fullLen (fun _ => 0)).held
          = [.mapping addr, .page pg] := by
        unfold FlSdesc.held
        rw [if_pos (show (FlSdesc.mk (some pg) addr 0 d.flq.fullLen (fun _ => 0)).dmaAddr ≠ 0
          from ha)]
        rfl
      refine List.Perm.trans ?_ (Flq.held_set d.flq hi _).symm
      rw [hnew]
      exact ((hbut.cons _).cons _)

/-- What filling one slot leaves alone. -/
theorem flqFillOne_frame (d : Descq) (i : ℕ) (o : FillOutcome) :
    (flqFillOne d i o).1.flq.size = d.flq.size ∧
      (flqFillOne d i o).1.descWrb = d.descWrb ∧ (flqFillOne d i o).1.inited = d.inited ∧
      ∀ k, k ≠ i → (flqFillOne d i o).1.flq.sdesc k = d.flq.sdesc k := by
  cases o with
  | ok pg addr => exact ⟨rfl, rfl, rfl, fun k hk => Function.update_of_ne hk _ _⟩
  | noMem => exact ⟨rfl, rfl, rfl, fun _ _ => rfl⟩
  | mapErr => exact ⟨rfl, rfl, rfl, fun _ _ => rfl⟩

/-- A slot that is filled has a page. -/
theorem fillOne_paged {d : Descq} {i : ℕ} (a : PageAnswer) (h : ∀ k, (d.flq.sdesc k).Paged) :
    ∀ k, ((flqFillOne d i a.fill).1.flq.sdesc k).Paged := by
  intro k
  cases a with
  | noMem => exact h k
  | mapErr _ => exact h k
  | ok pg addr =>
      by_cases hk : k = i
      · subst hk
        intro hnone
        rw [show (flqFillOne d k (PageAnswer.ok pg addr).fill).1.flq.sdesc k = _ from
          Function.update_self ..] at hnone
        exact absurd hnone (Option.some_ne_none pg)
      · rw [(flqFillOne_frame d i _).2.2.2 k hk]
        exact h k

theorem fillOne_rv (d : Descq) (i : ℕ) (a : PageAnswer) :
    (flqFillOne d i a.fill).2 < 0 ↔ a.isOk = false := by
  cases a with
  | ok pg addr => exact iff_of_false (lt_irrefl 0) (fun h => Bool.noConfusion h)
  | noMem => exact iff_of_true (show enomem < 0 by decide) rfl
  | mapErr _ => exact iff_of_true (show einval < 0 by decide) rfl

/-- **The fill loop**, from slot `i` on. -/
theorem fillFrom_ok {page : ℕ → PageAnswer} (hnz : ∀ i, (page i).Nonzero) (n i : ℕ)
    {log : List (Op PgRes)} {d : Descq} (h : Outstanding log d.flq.held)
    (hsize : i + n = d.flq.size) (hempty : ∀ k, i ≤ k → (d.flq.sdesc k).Empty)
    (hpaged : ∀ k, (d.flq.sdesc k).Paged) (hfresh : FreshFrom log (flqFillFromLog page n i)) :
    let d' := (flqFillFrom (fun i => (page i).fill) n i d).1
    Outstanding (log ++ flqFillFromLog page n i) d'.flq.held ∧ d'.flq.size = d.flq.size ∧
      (∀ k, (d'.flq.sdesc k).Paged) ∧ (∀ k, d.flq.size ≤ k → (d'.flq.sdesc k).Empty) ∧
      d'.descWrb = d.descWrb ∧ d'.inited = d.inited := by
  induction n generalizing i log d with
  | zero =>
      rw [flqFillFromLog, List.append_nil]
      exact ⟨h, rfl, hpaged, fun k hk => hempty k (by omega), rfl, rfl⟩
  | succ n ih =>
      rw [flqFillFromLog] at hfresh ⊢
      rw [FreshFrom.append_iff] at hfresh
      obtain ⟨hfresh₁, hfresh₂⟩ := hfresh
      obtain ⟨hsz, hwrb, hini, hother⟩ := flqFillOne_frame d i (page i).fill
      have hone := fillOne_held h (by omega) (hempty i le_rfl) hfresh₁ (hnz i)
      have hpaged' := fillOne_paged (i := i) (page i) hpaged
      have hempty' : ∀ k, i + 1 ≤ k → ((flqFillOne d i (page i).fill).1.flq.sdesc k).Empty := by
        intro k hk
        rw [hother k (by omega)]
        exact hempty k (by omega)
      intro d'
      have hd' : d' = if (flqFillOne d i (page i).fill).2 < 0 then (flqFillOne d i (page i).fill).1
          else (flqFillFrom (fun i => (page i).fill) n (i + 1)
            (flqFillOne d i (page i).fill).1).1 := by
        show (flqFillFrom (fun i => (page i).fill) (n + 1) i d).1 = _
        rw [flqFillFrom]
        simp only
        split_ifs
        · rfl
        · rfl
      -- the loop ends with the first page that cannot be had
      by_cases hok : (page i).isOk = true
      · rw [if_neg (fun hlt => absurd ((fillOne_rv d i (page i)).mp hlt) (by rw [hok]; decide))]
          at hd'
        rw [if_pos hok] at hfresh₂ ⊢
        rw [hd', ← List.append_assoc]
        obtain ⟨h₁, h₂, h₃, h₄, h₅, h₆⟩ := ih (i + 1) hone (by omega) hempty' hpaged' hfresh₂
        exact ⟨h₁, h₂.trans hsz, h₃, fun k hk => h₄ k (by omega), h₅.trans hwrb, h₆.trans hini⟩
      · rw [if_pos ((fillOne_rv d i (page i)).mpr (Bool.eq_false_of_not_eq_true hok))] at hd'
        rw [if_neg hok, List.append_nil, hd']
        exact ⟨hone, hsz, hpaged', fun k hk => hempty' k (by omega), hwrb, hini⟩

/-! ## Starting and stopping -/

/-- **`descq_flq_alloc_resource`** on a queue whose slots hold nothing. -/
theorem PagesOk.allocFlq {log : List (Op PgRes)} {d : Descq} (h : PagesOk log d)
    (hempty : ∀ i, (d.flq.sdesc i).Empty) (hwrb : d.descWrb.alloc = true) {a : AllocAnswers}
    (hnz : ∀ i, (a.page i).Nonzero) (hfresh : FreshFrom log (flqAllocLog d a)) :
    PagesOk (log ++ flqAllocLog d a) (descqFlqAllocResource d a.sdesc a.env.fill).1 ∧
      (descqFlqAllocResource d a.sdesc a.env.fill).1.inited = d.inited := by
  unfold flqAllocLog at hfresh ⊢
  unfold descqFlqAllocResource
  by_cases hs : a.sdesc = true
  swap
  · rw [if_neg hs, if_neg hs, List.append_nil]
    exact ⟨h, rfl⟩
  rw [if_pos hs] at hfresh
  rw [if_pos hs, if_pos hs]
  have hnil : Outstanding log d.newSdesc.flq.held := by
    have hheld : d.flq.held = d.newSdesc.flq.held := by
      refine List.flatMap_congr ?_
      intro i _
      rw [(hempty i).held]
      rfl
    exact hheld ▸ h.slots
  obtain ⟨hf₁, -⟩ := FreshFrom.append_iff.mp hfresh
  obtain ⟨h₁, h₂, h₃, h₄, h₅, h₆⟩ := fillFrom_ok hnz d.flq.size 0 hnil (Nat.zero_add _)
    (fun _ _ => ⟨rfl, rfl⟩) (fun _ _ => rfl) hf₁
  change PagesOk (log ++ (_ ++ if (flqFillFrom (fun i => (a.page i).fill) d.flq.size 0
    d.newSdesc).2 < 0 then _ else _)) (if (flqFillFrom (fun i => (a.page i).fill) d.flq.size 0
    d.newSdesc).2 < 0 then _ else _ : Descq × ℤ).1 ∧ (if (flqFillFrom (fun i => (a.page i).fill)
    d.flq.size 0 d.newSdesc).2 < 0 then _ else _ : Descq × ℤ).1.inited = _
  have hok : PagesOk (log ++ flqFillFromLog a.page d.flq.size 0)
      (flqFillFrom (fun i => (a.page i).fill) d.flq.size 0 d.newSdesc).1 := by
    refine ⟨h₁, h₃, fun i hi => h₄ i (h₂ ▸ hi), fun hfree => ?_⟩
    rw [h₅] at hfree
    exact absurd (hwrb.symm.trans hfree) (by decide)
  by_cases hrv : (flqFillFrom (fun i => (a.page i).fill) d.flq.size 0 d.newSdesc).2 < 0
  · rw [if_pos hrv, if_pos hrv, ← List.append_assoc]
    exact ⟨pagesOk_empty hok.freeFlq (fun _ => ⟨rfl, rfl⟩), h₆⟩
  · rw [if_neg hrv, if_neg hrv, List.append_nil]
    exact ⟨hok.congr rfl rfl, h₆⟩

/-- **`qdma_descq_alloc_resource`** on a queue without rings. -/
theorem PagesOk.alloc {log : List (Op PgRes)} {d : Descq} (h : PagesOk log d)
    (hfree : d.descWrb.alloc = false) {a : AllocAnswers} (hnz : ∀ i, (a.page i).Nonzero)
    (irq : Option ℕ) (hfresh : FreshFrom log (allocResourceLog d a)) :
    PagesOk (log ++ allocResourceLog d a) (qdmaDescqAllocResource d a.env irq).1 ∧
      (qdmaDescqAllocResource d a.env irq).1.inited = d.inited := by
  -- the queue has no pages yet
  have hempty := h.empty hfree
  have hnil : Outstanding log [] := by
    have hslots := h.slots
    rwa [Flq.held_nil hempty] at hslots
  unfold allocResourceLog at hfresh ⊢
  unfold qdmaDescqAllocResource
  simp only [show a.env.desc = a.desc from rfl, show a.env.wrb = a.wrb from rfl,
    show a.env.sdesc = a.sdesc from rfl]
  by_cases hdesc : a.desc = true
  swap
  · rw [if_neg hdesc, if_neg hdesc]
    exact ⟨h.free, (freeResource_flq d).2.2⟩
  rw [if_pos hdesc] at hfresh
  rw [if_pos hdesc, if_pos hdesc]
  by_cases hkind : (d.conf.st && d.conf.c2h) = true
  swap
  · have hkind' : ¬ ((descRingAlloc d).conf.st && (descRingAlloc d).conf.c2h) = true := hkind
    rw [if_neg hkind, if_neg hkind', List.append_nil]
    exact ⟨h.congr rfl rfl, rfl⟩
  have hkind' : ((descRingAlloc d).conf.st && (descRingAlloc d).conf.c2h) = true := hkind
  rw [if_pos hkind] at hfresh
  rw [if_pos hkind, if_pos hkind']
  by_cases hwrb : a.wrb = true
  swap
  · rw [if_neg hwrb, if_neg hwrb]
    simp only
    rw [if_pos (show qdmaErrOutOfMemory < 0 by decide)]
    have hok : PagesOk log (wrbRingAlloc (descRingAlloc d)) := pagesOk_empty hnil hempty
    exact ⟨hok.free, (freeResource_flq _).2.2⟩
  rw [if_pos hwrb] at hfresh
  rw [if_pos hwrb, if_pos hwrb]
  simp only at hfresh ⊢
  -- the pages allocated are new; where some fail, all are given back
  obtain ⟨hf, -⟩ := FreshFrom.append_iff.mp hfresh
  have hok : PagesOk log d.withWrb := pagesOk_empty hnil hempty
  obtain ⟨hflq, hini⟩ := hok.allocFlq hempty rfl hnz hf
  by_cases hrv : (descqFlqAllocResource d.withWrb a.sdesc a.env.fill).2 < 0
  · rw [if_pos hrv, ← List.append_assoc]
    refine (if_pos hrv : _ = _) ▸ ?_
    exact ⟨hflq.free, (freeResource_flq _).2.2.trans hini⟩
  · rw [if_neg hrv, List.append_nil]
    refine (if_neg hrv : _ = _) ▸ ?_
    exact ⟨hflq.congr rfl rfl, hini⟩

/-- The pages are in order, and a queue that is not initialised has no rings. -/
structure PagesInv (log : List (Op PgRes)) (d : Descq) : Prop extends PagesOk log d where
  idle : d.inited = false → d.descWrb.alloc = false

theorem PagesInv.congr {log : List (Op PgRes)} {d d' : Descq} (h : PagesInv log d)
    (hp : d'.flq.pages = d.flq.pages) (hw : d'.descWrb.alloc = d.descWrb.alloc)
    (hi : d'.inited = d.inited) : PagesInv log d' :=
  ⟨h.toPagesOk.congr hp hw, fun hini => hw.trans (h.idle (hi.symm.trans hini))⟩

/-- A queue that has been freed, in whatever state it is left. -/
theorem PagesOk.freed {log : List (Op PgRes)} {d d' : Descq} (h : PagesOk log d)
    (hflq : d'.flq = (qdmaDescqFreeResource d).flq)
    (hw : d'.descWrb = (qdmaDescqFreeResource d).descWrb) :
    PagesInv (log ++ freeResourceLog d) d' := by
  have hfree : d'.descWrb.alloc = false := by
    rw [hw]
    exact (freeResource_flq d).2.1
  exact ⟨h.free.congr (congrArg Flq.pages hflq) (congrArg WrbRing.alloc hw), fun _ => hfree⟩

theorem configComplete_frame (d : Descq) (csr : GlobalCsrConf) :
    (qdmaDescqConfigComplete d csr).flq = d.flq ∧
      (qdmaDescqConfigComplete d csr).descWrb = d.descWrb ∧
      (qdmaDescqConfigComplete d csr).inited = d.inited := by
  unfold qdmaDescqConfigComplete
  simp only
  split_ifs
  · exact ⟨rfl, rfl, rfl⟩
  · exact ⟨rfl, rfl, rfl⟩

theorem progHw_frame (d : Descq) (ctx : CtxOutcome) :
    (qdmaDescqProgHw d ctx).1.flq = d.flq ∧ (qdmaDescqProgHw d ctx).1.descWrb = d.descWrb ∧
      (qdmaDescqProgHw d ctx).1.inited = d.inited := by
  cases ctx with
  | fail valid => exact ⟨rfl, rfl, rfl⟩
  | ok =>
      unfold qdmaDescqProgHw
      simp only
      split_ifs
      · exact ⟨rfl, rfl, rfl⟩
      · exact ⟨rfl, rfl, rfl⟩

/-- **`qdma_queue_start`**, past the check of the flags. -/
theorem PagesInv.bringUp {log : List (Op PgRes)} {d : Descq} (h : PagesInv log d)
    (hini : d.inited = false) {a : StartAnswers} (hnz : ∀ i, (a.alloc.page i).Nonzero)
    (hfresh : FreshFrom log (bringUpLog d a)) :
    PagesInv (log ++ bringUpLog d a) (descqBringUp d a.env).1 := by
  unfold bringUpLog at hfresh ⊢
  unfold descqBringUp
  simp only [show a.env.alloc = a.alloc.env from rfl, show a.env.irq = a.irq from rfl,
    show a.env.ctx = a.ctx from rfl] at hfresh ⊢
  obtain ⟨hf, -⟩ := FreshFrom.append_iff.mp hfresh
  have hmark : PagesOk log d.markInited := h.toPagesOk.congr rfl rfl
  obtain ⟨halloc, hini'⟩ := hmark.alloc (h.idle hini) hnz a.irq hf
  replace hini' : (qdmaDescqAllocResource d.markInited a.alloc.env a.irq).1.inited = true := hini'
  rw [← List.append_assoc]
  show PagesInv _ (if (qdmaDescqAllocResource d.markInited a.alloc.env a.irq).2 < 0 then _
    else _ : Descq × ℤ).1
  by_cases hrv : (qdmaDescqAllocResource d.markInited a.alloc.env a.irq).2 < 0
  · rw [if_pos hrv, if_pos hrv]
    exact halloc.freed rfl rfl
  rw [if_neg hrv, if_neg hrv]
  generalize (qdmaDescqAllocResource d.markInited a.alloc.env a.irq).1 = d' at halloc hini' ⊢
  obtain ⟨p₁, p₂, p₃⟩ := progHw_frame d' a.ctx
  show PagesInv _ (if (qdmaDescqProgHw d' a.ctx).2 < 0 then _ else _ : Descq × ℤ).1
  have hprog : PagesOk (log ++ allocResourceLog d.markInited a.alloc)
      (qdmaDescqProgHw d' a.ctx).1 :=
    halloc.congr (congrArg Flq.pages p₁) (congrArg WrbRing.alloc p₂)
  by_cases hrv' : (qdmaDescqProgHw d' a.ctx).2 < 0
  · rw [if_pos hrv', if_pos hrv']
    have hclear : PagesOk (log ++ allocResourceLog d.markInited a.alloc)
        (qdmaDescqContextClear (qdmaDescqProgHw d' a.ctx).1 a.ctxCleared) := hprog.congr rfl rfl
    exact hclear.freed rfl rfl
  · rw [if_neg hrv', if_neg hrv', List.append_nil]
    refine ⟨hprog.congr rfl rfl, fun hno => ?_⟩
    exact absurd ((p₃.trans hini').symm.trans hno) (by decide)

/-- **`qdma_queue_start`.** -/
theorem PagesInv.start {log : List (Op PgRes)} {d : Descq} (h : PagesInv log d) {a : StartAnswers}
    (hnz : ∀ i, (a.alloc.page i).Nonzero) (hfresh : FreshFrom log (startLog d a)) :
    PagesInv (log ++ startLog d a) (descqStart d a.env).1 := by
  unfold startLog at hfresh ⊢
  unfold descqStart
  simp only [show a.env.csr = a.csr from rfl]
  cases hcsr : a.csr with
  | none => exact h.freed rfl rfl
  | some csr =>
      rw [hcsr] at hfresh
      simp only at hfresh ⊢
      obtain ⟨c₁, c₂, c₃⟩ := configComplete_frame d csr
      have hconf : PagesInv log (qdmaDescqConfigComplete d csr) :=
        h.congr (congrArg Flq.pages c₁) (congrArg WrbRing.alloc c₂) c₃
      generalize qdmaDescqConfigComplete d csr = d' at hconf hfresh ⊢
      by_cases hbad : (!d'.enabled || d'.inited || d'.online) = true
      · rw [if_pos hbad, if_pos hbad, List.append_nil]
        exact hconf
      · rw [if_neg hbad] at hfresh
        rw [if_neg hbad, if_neg hbad]
        refine hconf.bringUp ?_ hnz hfresh
        by_contra hini
        exact hbad (by rw [Bool.eq_true_of_not_eq_false hini, Bool.or_true, Bool.true_or])

/-- **`qdma_queue_stop`.** -/
theorem PagesInv.stop {log : List (Op PgRes)} {d : Descq} (h : PagesInv log d) (ctxCleared : Bool) :
    PagesInv (log ++ freeResourceLog d) (descqStop d ctxCleared) := by
  have hok : PagesOk log
      (qdmaDescqContextClear { d with wrkthp := none, wbthp := none } ctxCleared) :=
    h.toPagesOk.congr rfl rfl
  exact hok.freed rfl rfl

/-- **`qdma_descq_cleanup`.** -/
theorem PagesInv.cleanup {log : List (Op PgRes)} {d : Descq} (h : PagesInv log d)
    (ctxCleared : Bool) : PagesInv (log ++ freeResourceLog d) (d.cleanup ctxCleared) := by
  unfold Descq.cleanup
  cases hini : d.inited with
  | false => exact h.freed rfl rfl
  | true =>
      have hok : PagesOk log
          (qdmaDescqContextClear { d with inited := false, online := false } ctxCleared) :=
        h.toPagesOk.congr rfl rfl
      exact hok.freed rfl rfl

/-! ## Receiving and reading -/

/-- Only the length and the offset of a slot are changed. -/
theorem pages_setSdesc (q : Flq) (i : ℕ) (s : FlSdesc) (hpg : s.pg = (q.sdesc i).pg)
    (ha : s.dmaAddr = (q.sdesc i).dmaAddr) : (q.setSdesc i s).pages = q.pages := by
  refine Prod.ext rfl (funext fun k => ?_)
  show (((q.setSdesc i s).sdesc k).pg, ((q.setSdesc i s).sdesc k).dmaAddr) = _
  by_cases hk : k = i
  · subst hk
    rw [show (q.setSdesc k s).sdesc k = s from Function.update_self .., hpg, ha]
    rfl
  · rw [show (q.setSdesc i s).sdesc k = q.sdesc k from Function.update_of_ne hk _ _]
    rfl

/-- Receiving and reading keep the pages and the mappings. -/
theorem pages_frame : FlqRcvFrame Flq.pages :=
  ⟨⟨pages_setSdesc, fun _ _ _ _ _ _ => rfl⟩, fun _ _ => rfl⟩

/-! ## Posting again -/

theorem refillLog_recycle (page : ℕ → PageAnswer) (count idx : ℕ) (d : Descq) :
    flqRefillLog page true count idx d = [] := by
  induction count generalizing idx d with
  | zero => rfl
  | succ count ih =>
      rw [flqRefillLog]
      simp only [if_true]
      exact ih _ _

/-- **`flq_unmap_one`.** -/
theorem PagesOk.unmapOne {log : List (Op PgRes)} {d : Descq} (h : PagesOk log d) (i : ℕ) :
    PagesOk (log ++ flqUnmapOneLog (d.flq.sdesc i)) (flqUnmapOne d i) := by
  unfold flqUnmapOneLog flqUnmapOne
  by_cases ha : (d.flq.sdesc i).dmaAddr ≠ 0
  swap
  · rw [if_neg ha, if_neg ha, List.append_nil]
    exact h
  rw [if_pos ha, if_pos ha]
  have hi : i < d.flq.size := by
    by_contra hge
    exact ha (h.beyond i (not_lt.mp hge)).2
  set s : FlSdesc := { d.flq.sdesc i with dmaAddr := 0 } with hs
  have hsdesc : ∀ k, (d.flq.setSdesc i s).sdesc k = if k = i then s else d.flq.sdesc k := by
    intro k
    exact Function.update_apply ..
  -- the mapping is the first thing that the slot holds
  have hheld : (d.flq.sdesc i).held = .mapping (d.flq.sdesc i).dmaAddr :: s.held := by
    unfold FlSdesc.held
    rw [if_pos ha, if_neg (show ¬ s.dmaAddr ≠ 0 from not_not.mpr rfl)]
    rfl
  have hempty : ∀ k, (d.flq.sdesc k).Empty → ((d.flq.setSdesc i s).sdesc k).Empty := by
    intro k hk
    rw [hsdesc]
    split_ifs with hki
    · subst hki
      exact ⟨hk.1, rfl⟩
    · exact hk
  refine ⟨?_, ?_, ?_, ?_⟩
  · have hslots := h.slots.of_perm (Flq.held_perm d.flq hi)
    rw [hheld, List.cons_append] at hslots
    exact hslots.unlock.of_perm (Flq.held_set d.flq hi s).symm
  · intro k
    show ((d.flq.setSdesc i s).sdesc k).Paged
    rw [hsdesc]
    split_ifs
    · exact fun _ => rfl
    · exact h.paged k
  · intro k hk
    exact hempty k (h.beyond k hk)
  · intro hfree k
    exact hempty k (h.empty hfree k)

/-- A slot that gets no page: one that cannot be mapped is freed again. -/
theorem fillOne_fail {log : List (Op PgRes)} {R : List PgRes} {a : PageAnswer}
    (h : Outstanding log R) (ha : a.isOk = false) (hfresh : FreshFrom log (flqFillOneLog a)) :
    Outstanding (log ++ flqFillOneLog a) R ∧ ∀ d i, (flqFillOne d i a.fill).1 = d := by
  cases a with
  | ok pg addr => exact absurd ha (fun h => Bool.noConfusion h)
  | noMem =>
      rw [flqFillOneLog, List.append_nil]
      exact ⟨h, fun _ _ => rfl⟩
  | mapErr pg =>
      rw [flqFillOneLog, ← List.append_assoc]
      exact ⟨(h.lock (hfresh.not_mem h)).unlock, fun _ _ => rfl⟩

/-- **`qdma_flq_refill`** that recycles the buffers, or gets no page. -/
theorem PagesOk.refill {log : List (Op PgRes)} {d : Descq} (h : PagesOk log d)
    {page : ℕ → PageAnswer} {recycle : Bool} (count : ℕ) {idx : ℕ}
    (hno : recycle = true ∨ (page (if idx = d.flq.size then 0 else idx)).isOk = false)
    (hfresh : FreshFrom log (flqRefillLog page recycle count idx d)) :
    PagesOk (log ++ flqRefillLog page recycle count idx d)
      (qdmaFlqRefill (fun i => (page i).fill) recycle count idx d) := by
  have hwrb : (qdmaFlqRefill (fun i => (page i).fill) recycle count idx d).descWrb = d.descWrb :=
    PostFrame.refill (f := Descq.descWrb) ⟨fun _ _ _ => rfl, fun _ _ => rfl, fun _ _ => rfl⟩
      _ _ _ _ _
  by_cases hrec : recycle = true
  · subst hrec
    rw [refillLog_recycle, List.append_nil]
    exact h.congr (pages_frame.recycle _ _ _ _) (congrArg WrbRing.alloc hwrb)
  cases count with
  | zero =>
      rw [flqRefillLog, List.append_nil]
      exact h
  | succ count =>
      have hbad := hno.resolve_left hrec
      rw [flqRefillLog] at hfresh ⊢
      rw [qdmaFlqRefill]
      simp only [if_neg hrec] at hfresh ⊢
      generalize (if idx = d.flq.size then 0 else idx) = i at hbad hfresh ⊢
      have hrv := (fillOne_rv (flqUnmapOne d i) i (page i)).mpr hbad
      simp only [if_pos hrv, List.append_nil] at hfresh ⊢
      have hunmap := h.unmapOne i
      rw [FreshFrom.append_iff] at hfresh
      obtain ⟨hfill, hsame⟩ := fillOne_fail hunmap.slots hbad hfresh.2
      rw [hsame, ← List.append_assoc]
      have hok : PagesOk (log ++ flqUnmapOneLog (d.flq.sdesc i) ++ flqFillOneLog (page i))
          (flqUnmapOne d i) := ⟨hfill, hunmap.paged, hunmap.beyond, hunmap.empty⟩
      exact hok.congr (pages_frame.countFailure _ _) rfl

/-- What the end of a service call finds. -/
theorem PagesOk.procEnd {log : List (Op PgRes)} {p : Proc} (h : PagesOk log p.d)
    {page : ℕ → PageAnswer} {pidxWrb pidxPend : ℕ}
    (hno : p.d.conf.fpDescqC2hPacket = none ∨
      (page (if pidxPend = p.d.flq.size then 0 else pidxPend)).isOk = false)
    (hfresh : FreshFrom log (procEndLog p pidxWrb pidxPend page)) :
    PagesOk (log ++ procEndLog p pidxWrb pidxPend page)
      (procEnd p pidxWrb pidxPend (fun i => (page i).fill)) := by
  unfold procEndLog at hfresh ⊢
  unfold Qdma.procEnd
  by_cases hcnt : p.procCnt ≠ 0
  swap
  · rw [if_neg hcnt, if_neg hcnt, List.append_nil]
    exact h
  rw [if_pos hcnt] at hfresh
  rw [if_pos hcnt, if_pos hcnt]
  simp only at hfresh ⊢
  have hserve : ServeFrame (fun d : Descq => (d.descWrb, d.conf.fpDescqC2hPacket)) :=
    { bufs := fun _ _ _ => rfl, pend := fun _ _ => rfl, warned := fun _ _ => rfl,
      slots := fun _ _ => rfl, regs := fun _ _ => rfl, copied := fun _ _ => rfl,
      lists := fun _ _ _ _ => rfl, pidx := fun _ _ _ => rfl }
  obtain ⟨d, hd, hpages, hframe⟩ : ∃ d : Descq,
      (if p.d.conf.fpDescqC2hPacket.isNone = true then
          qdmaC2hPacketsProcDflt { p.d with pidxWrb := pidxWrb, pidx := p.pidx }
        else { p.d with pidxWrb := pidxWrb, pidx := p.pidx }) = d ∧
      d.flq.pages = p.d.flq.pages ∧
      (d.descWrb, d.conf.fpDescqC2hPacket) = (p.d.descWrb, p.d.conf.fpDescqC2hPacket) := by
    refine ⟨_, rfl, ?_, ?_⟩
    · split_ifs
      · exact pages_frame.packetsProc _ _
      · rfl
    · split_ifs
      · exact hserve.packetsProc _ _
      · rfl
  rw [hd] at hfresh ⊢
  -- serving the requests leaves the pages where they are
  have hok : PagesOk log d :=
    h.congr hpages (congrArg (fun q : WrbRing × _ => q.1.alloc) hframe)
  unfold procRefillLog at hfresh ⊢
  unfold Qdma.procRefill
  by_cases hpend : d.flq.pidxPend ≠ pidxPend
  swap
  · rw [if_neg hpend, if_neg hpend, List.append_nil]
    exact hok.congr rfl rfl
  rw [if_pos hpend] at hfresh
  rw [if_pos hpend, if_pos hpend]
  simp only
  have hsize : d.flq.size = p.d.flq.size := congrArg Prod.fst hpages
  have hfp : d.conf.fpDescqC2hPacket = p.d.conf.fpDescqC2hPacket := congrArg Prod.snd hframe
  have hrefill := hok.refill _ ?_ hfresh
  · exact hrefill.congr rfl rfl
  · rw [hsize, hfp]
    rcases hno with hno | hno
    · exact .inl (by rw [hno]; rfl)
    · exact .inr hno

/-- **`descq_process_completion_st_c2h`.** -/
theorem PagesInv.service {log : List (Op PgRes)} {d : Descq} (h : PagesInv log d) (budget : ℤ)
    {page : ℕ → PageAnswer}
    (hno : d.conf.fpDescqC2hPacket = none ∨
      (page (if d.flq.pidxPend = d.flq.size then 0 else d.flq.pidxPend)).isOk = false)
    (hfresh : FreshFrom log (serviceLog d budget page)) :
    PagesInv (log ++ serviceLog d budget page)
      (descqProcessCompletionStC2h d budget (fun i => (page i).fill)).1 := by
  have hserve : ServeFrame (fun d : Descq => (d.descWrb.alloc, d.inited)) :=
    { bufs := fun _ _ _ => rfl, pend := fun _ _ => rfl, warned := fun _ _ => rfl,
      slots := fun _ _ => rfl, regs := fun _ _ => rfl, copied := fun _ _ => rfl,
      lists := fun _ _ _ _ => rfl, pidx := fun _ _ _ => rfl }
  have hloop : LoopFrame (fun d : Descq => (d.descWrb.alloc, d.inited)) :=
    { bufs := fun _ _ _ => rfl, pend := fun _ _ => rfl, warned := fun _ _ => rfl,
      err := fun _ _ => rfl, next := fun _ _ _ _ => rfl }
  have hframe := hserve.processCompletion hloop d budget (fun i => (page i).fill)
  suffices hok : PagesOk (log ++ serviceLog d budget page)
      (descqProcessCompletionStC2h d budget (fun i => (page i).fill)).1 by
    refine ⟨hok, fun hini => ?_⟩
    exact (congrArg Prod.fst hframe).trans (h.idle ((congrArg Prod.snd hframe).symm.trans hini))
  -- the three early returns log nothing
  unfold serviceLog at hfresh ⊢
  unfold descqProcessCompletionStC2h
  by_cases herr : d.err = true
  · rw [if_pos herr, if_pos herr, List.append_nil]
    exact h.toPagesOk
  rw [if_neg herr] at hfresh
  rw [if_neg herr, if_neg herr]
  by_cases hidle : (d.conf.fpDescqC2hPacket.isNone && d.pendList.isEmpty &&
      d.workList.isEmpty) = true
  · rw [if_pos hidle, if_pos hidle, List.append_nil]
    exact h.toPagesOk
  rw [if_neg hidle] at hfresh
  rw [if_neg hidle, if_neg hidle]
  simp only at hfresh ⊢
  by_cases hpend : ringIdxDelta d.descWrb.wbPidx d.cidxWrb d.conf.rngszWrb = 0
  · rw [if_pos hpend, if_pos hpend, List.append_nil]
    exact h.toPagesOk
  rw [if_neg hpend] at hfresh
  rw [if_neg hpend, if_neg hpend]
  -- going through the entries moves no page; the refill behind it may
  have hpages := pages_frame.procLoop (procBudget budget
    (ringIdxDelta d.descWrb.wbPidx d.cidxWrb d.conf.rngszWrb)) { d := d, pidx := d.pidx }
  have hconf : LoopFrame (fun d : Descq => (d.descWrb.alloc, d.conf)) :=
    { bufs := fun _ _ _ => rfl, pend := fun _ _ => rfl, warned := fun _ _ => rfl,
      err := fun _ _ => rfl, next := fun _ _ _ _ => rfl }
  have hkeep := hconf.procLoop (procBudget budget
    (ringIdxDelta d.descWrb.wbPidx d.cidxWrb d.conf.rngszWrb)) { d := d, pidx := d.pidx }
  generalize procLoop (procBudget budget
    (ringIdxDelta d.descWrb.wbPidx d.cidxWrb d.conf.rngszWrb)) { d := d, pidx := d.pidx } = p
    at hpages hkeep hfresh ⊢
  have hok : PagesOk log p.d := h.toPagesOk.congr hpages (congrArg Prod.fst hkeep)
  cases hret : p.ret with
  | some rv =>
      simp only [List.append_nil]
      exact hok
  | none =>
      rw [hret] at hfresh
      refine hok.procEnd ?_ hfresh
      rw [show p.d.conf = d.conf from congrArg Prod.snd hkeep,
        show p.d.flq.size = d.flq.size from congrArg Prod.fst hpages]
      exact hno

/-! ## Whole runs -/

theorem NewRx.pagesInv {d : Descq} (h : NewRx d) : PagesInv [] d := by
  have hnil : Outstanding ([] : List (Op PgRes)) [] := ⟨[], rfl, List.Perm.refl _⟩
  refine ⟨pagesOk_empty hnil (fun i => ?_), fun _ => h.descWrb⟩
  rw [h.flq]
  exact ⟨rfl, rfl⟩

/-- **A call keeps the pages in order.** -/
theorem PagesInv.step {s : RxPages} (h : PagesInv s.log s.d) {o : PagesOp} (hl : PagesLegal s o) :
    PagesInv (s.step o).log (s.step o).d := by
  obtain ⟨hfresh, hl⟩ := hl
  cases o with
  | start a => exact h.start hl hfresh
  | stop ctxCleared => exact h.stop ctxCleared
  | cleanup ctxCleared => exact h.cleanup ctxCleared
  | service budget page => exact h.service budget hl hfresh
  | read cb updatePidx refill =>
      have hframe : RxFrame (fun d : Descq => (d.descWrb.alloc, d.inited)) :=
        { bufs := fun _ _ _ => rfl, pend := fun _ _ => rfl, warned := fun _ _ => rfl,
          slots := fun _ _ => rfl, regs := fun _ _ => rfl, copied := fun _ _ => rfl }
      have hkeep := hframe.read s.d cb updatePidx refill
      show PagesInv (s.log ++ []) _
      rw [List.append_nil]
      exact h.congr (pages_frame.read _ _ _ _) (congrArg Prod.fst hkeep) (congrArg Prod.snd hkeep)
  | other d =>
      show PagesInv (s.log ++ []) d
      rw [List.append_nil]
      exact h.congr hl.1 hl.2.2 hl.2.1

theorem PagesInv.law {s : RxPages} (h : PagesInv s.log s.d) : PagesLaw s := by
  refine ⟨h.slots, h.slots.nodup, fun hfree => ?_⟩
  have hslots := h.slots
  rw [Flq.held_nil (h.empty hfree)] at hslots
  exact hslots.balanced

/-- **No page is lost or shared**, in every run of calls that keep the pages, whatever the kernel
answers. -/
theorem rx_pages_kept {d : Descq} (hd : NewRx d) {s : RxPages} {ops : List PagesOp}
    (hr : Run RxPages.step PagesLegal { d := d } ops s) : PagesLaw s :=
  (hr.invariant (I := fun s : RxPages => PagesInv s.log s.d) hd.pagesInv
    (fun _ _ h hl => h.step hl)).law

/-- A queue that is added, with a packet handler or without. -/
def addedRx (fp : Option (PktArgs → ℤ)) : Descq :=
  { enabled := true, conf := { st := true, c2h := true, fpDescqC2hPacket := fp } }

/-- A ring of three slots, each filled with a page of its own unless it is slot `bad`. -/
def fillThree (bad : ℕ) : StartAnswers :=
  { csr := some { ringSz := fun _ => 4, c2hBufSz := fun _ => 4096 }
    alloc := { page := fun i => if i = bad then .mapErr 9 else .ok (i + 1) (4096 * (i + 1)) } }

/-- The device has written two packets of 64 bytes. -/
def Descq.twoPackets (d : Descq) : Descq :=
  { d with descWrb := { d.descWrb with mem := fun _ => 64 * 16 + 10, wbPidx := 2 } }

/-- A queue with packet handler that has received two packets. -/
def receivedTwo : RxPages :=
  let s := RxPages.step { d := addedRx (some fun _ => 0) } (.start (fillThree 7))
  s.step (.other s.d.twoPackets)

theorem fillThree_nonzero (bad i : ℕ) : ((fillThree bad).alloc.page i).Nonzero := by
  show PageAnswer.Nonzero (if i = bad then .mapErr 9 else .ok (i + 1) (4096 * (i + 1)))
  split_ifs
  · trivial
  · exact Nat.mul_ne_zero (by decide) i.succ_ne_zero

/-- The same, after a start in which the last slot cannot be mapped. -/
def receivedTwoLater : RxPages :=
  let s := RxPages.step { d := addedRx (some fun _ => 0) } (.start (fillThree 2))
  let s := s.step (.start (fillThree 7))
  s.step (.other s.d.twoPackets)

/-- The first slot is not refilled, and the queue is stopped. -/
theorem rx_pages_kept_refused :
    PagesLaw ((receivedTwoLater.step (.service 0 fun _ => .mapErr 9)).step (.stop true)) := by
  refine rx_pages_kept (d := addedRx (some fun _ => 0)) ⟨rfl, rfl, rfl⟩
    (((((Run.nil.snoc ⟨?_, ?_⟩).snoc ⟨?_, ?_⟩).snoc ⟨?_, ?_⟩).snoc ⟨?_, ?_⟩).snoc ⟨?_, trivial⟩)
  · decide +kernel
  · decide +kernel
  · exact fillThree_nonzero 2
  · decide +kernel
  · exact fillThree_nonzero 7
  · trivial
  · exact ⟨rfl, rfl, rfl⟩
  · decide +kernel
  · exact .inr rfl

/-- Three slots, the first of them mapped at bus address 0. -/
def fillAtZero : StartAnswers :=
  { fillThree 7 with alloc := { page := fun i => .ok (i + 1) (4096 * i) } }

/-- The first slot is refilled with page 5, and the queue is stopped. -/
def refilledOne : RxPages := (receivedTwo.step (.service 0 fun _ => .ok 5 20480)).step (.stop true)

/-- **A page is lost**: page 1 is still held when the queue has been stopped.  Nor is a mapping at
address 0 ever undone. -/
theorem rx_page_lost :
    run [] refilledOne.log = some [.page 1] ∧ ¬ PagesLaw refilledOne ∧
      run [] ((RxPages.step { d := addedRx none } (.start fillAtZero)).step (.stop true)).log
        = some [.mapping 0] := by
  have hrun : run [] refilledOne.log = some [.page 1] := by decide +kernel
  refine ⟨hrun, ?_, by decide +kernel⟩
  intro h
  exact absurd (hrun.symm.trans (h.freed (by decide +kernel))) (by decide)

end Qdma
