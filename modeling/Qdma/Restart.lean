/-
# A restart

The data-path state of a queue (`DataPath`) after `qdma_queue_stop`, `qdma_queue_reconfig`
with the old configuration and `qdma_queue_start`, against that after the first start.

Configuring and allocating reset all of it but the error flag and the two lists of requests:
`restart_fresh_iff` says that these three decide.
-/
import Qdma.QueueRun
import Qdma.StartC2h
import Qdma.FreeListLaw

namespace Qdma

open Exec

/-! ## The data-path state -/

/-- The data-path state of a queue; of every receive buffer its flags, length and offset. -/
structure DataPath where
  pidx : ℕ
  cidx : ℕ
  avail : ℕ
  credit : ℕ
  pidxWrb : ℕ
  cidxWrb : ℕ
  cidxWrbPend : ℕ
  color : Bool
  descWrbCur : ℕ
  pidxPend : ℕ
  pktDlen : ℕ
  uddCnt : ℕ
  slots : List (SdescInfo × ℕ × ℕ)
  err : Bool
  workList : List SgtReqCb
  pendList : List SgtReqCb

/-- The data-path state of `d`. -/
def Descq.dataPath (d : Descq) : DataPath where
  pidx := d.pidx
  cidx := d.cidx
  avail := d.avail
  credit := d.credit
  pidxWrb := d.pidxWrb
  cidxWrb := d.cidxWrb
  cidxWrbPend := d.cidxWrbPend
  color := d.color
  descWrbCur := d.descWrbCur
  pidxPend := d.flq.pidxPend
  pktDlen := d.flq.pktDlen
  uddCnt := d.flq.uddCnt
  slots := (List.range d.flq.size).map
    (fun i => (d.flq.sdescInfo i, (d.flq.sdesc i).len, (d.flq.sdesc i).offset))
  err := d.err
  workList := d.workList
  pendList := d.pendList

/-- A queue as `qdma_queue_add` leaves it. -/
structure AddedQueue (d : Descq) : Prop where
  flq : d.flq = {}
  err : d.err = false
  workList : d.workList = []
  pendList : d.pendList = []
  wrbAlloc : d.descWrb.alloc = false
  finished : d.finished = []

/-! ## Both starts -/

/-- What decides the state after a start: the ring and buffer sizes, and of a queue that is
not ST C2H the receive side, which stays as it was. -/
structure SameStart (d d' : Descq) (csr : GlobalCsrConf) : Prop where
  ring : csr.ringSz d'.conf.descRngSzIdx = csr.ringSz d.conf.descRngSzIdx
  buf : csr.c2hBufSz d'.conf.c2hBufSzIdx = csr.c2hBufSz d.conf.c2hBufSzIdx
  kind : d'.isRx = d.isRx
  flq : d.flq = {} ∧ d'.flq = {}
  tx : d.isRx = false → d'.color = d.color ∧ d'.cidxWrbPend = d.cidxWrbPend ∧
    d'.descWrbCur = d.descWrbCur

/-- **Two starts** on the same sizes agree but for the error flag and the lists. -/
theorem SameStart.dataPath {d d' : Descq} {csr : GlobalCsrConf} (h : SameStart d d' csr)
    {env env' : StartEnv} (hcsr : env.csr = some csr) (hcsr' : env'.csr = some csr)
    (hok : (descqStart d env).2 = 0) (hok' : (descqStart d' env').2 = 0) :
    (descqStart d' env').1.dataPath =
      { (descqStart d env).1.dataPath with
        err := d'.err, workList := d'.workList, pendList := d'.pendList } := by
  obtain ⟨hflq, hflq'⟩ := h.flq
  cases hkind : d.isRx with
  | true =>
      obtain ⟨slot, sdesc, intrId, heq, hfill⟩ := startC2h_eq hcsr hkind hok
      obtain ⟨slot', sdesc', intrId', heq', hfill'⟩ :=
        startC2h_eq hcsr' (h.kind.trans hkind) hok'
      -- the buffers are whole in both
      have hslots : ∀ i ∈ List.range (u32Sub (csr.ringSz d.conf.descRngSzIdx) 1),
          (({} : SdescInfo), (sdesc' i).len, (sdesc' i).offset)
            = ({}, (sdesc i).len, (sdesc i).offset) := by
        intro i hi
        have hf := hfill i
        have hf' := hfill' i
        have hlt : i < u32Sub (csr.ringSz d.conf.descRngSzIdx) 1 := List.mem_range.mp hi
        rw [if_pos ⟨Nat.zero_le i, hlt⟩] at hf
        rw [if_pos ⟨Nat.zero_le i, by rw [← h.ring] at hlt; exact hlt⟩] at hf'
        have hfull : ((startConf d' csr).withRings slot' sdesc').flq.fullLen
            = ((startConf d csr).withRings slot sdesc).flq.fullLen := by
          show u32 (pageSize <<< (((fls (csr.c2hBufSz d'.conf.c2hBufSzIdx) + 255) % 256 + 256
            - pageShift) % 256)) = _
          rw [h.buf]
          rfl
        rw [hf.1, hf.2, hf'.1, hf'.2, hfull]
      rw [heq, heq']
      have hmap := List.map_congr_left hslots
      rw [← h.ring] at hmap
      unfold Descq.dataPath
      congr 1
      · show u32Sub (u32Sub (csr.ringSz d'.conf.descRngSzIdx) 1) 1 = _
        rw [h.ring]
        rfl
      · show d'.flq.pidxPend = d.flq.pidxPend
        rw [hflq, hflq']
      · show d'.flq.pktDlen = d.flq.pktDlen
        rw [hflq, hflq']
      · show d'.flq.uddCnt = d.flq.uddCnt
        rw [hflq, hflq']
      · refine hmap.trans ?_
        rw [h.ring]
        rfl
  | false =>
      obtain ⟨hcolor, hpend, hcur⟩ := h.tx hkind
      rw [descqStart_eq hcsr hkind hok, descqStart_eq hcsr' (h.kind.trans hkind) hok']
      unfold Descq.dataPath
      congr 1
      · show u32Sub (u32Sub (csr.ringSz d'.conf.descRngSzIdx) 1) 1 = _
        rw [h.ring]
        rfl
      · show d'.flq.pidxPend = d.flq.pidxPend
        rw [hflq, hflq']
      · show d'.flq.pktDlen = d.flq.pktDlen
        rw [hflq, hflq']
      · show d'.flq.uddCnt = d.flq.uddCnt
        rw [hflq, hflq']
      · show (List.range d'.flq.size).map _ = (List.range d.flq.size).map _
        rw [hflq, hflq']
        rfl

/-! ## Stop, configure, start -/

/-- The configuration and the state of a queue just started. -/
theorem descqStart_fixed {d : Descq} {env : StartEnv} {csr : GlobalCsrConf}
    (hcsr : env.csr = some csr) (hok : (descqStart d env).2 = 0) :
    (descqStart d env).1.enabled = true ∧ (descqStart d env).1.isRx = d.isRx ∧
      (descqStart d env).1.descWrb.alloc = (d.isRx || d.descWrb.alloc) ∧
      (d.isRx = false →
        (descqStart d env).1.rxPart = ({ d with cidxWrb := 0, pidxWrb := 0 }).rxPart) := by
  obtain ⟨hen, -, -, -⟩ := descqStart_ok hcsr hok
  cases hkind : d.isRx with
  | true =>
      obtain ⟨slot, sdesc, intrId, heq, -⟩ := startC2h_eq hcsr hkind hok
      rw [heq]
      exact ⟨hen, hkind, rfl, fun h => absurd h (by decide)⟩
  | false =>
      rw [descqStart_eq hcsr hkind hok]
      exact ⟨hen, hkind, (Bool.false_or _).symm, fun _ => rfl⟩

/-- The queue after a stop and a reconfiguration. -/
def Descq.again (d : Descq) (ctxCleared : Bool) (qconf : QueueConf) (numVecs : ℕ) : Descq :=
  (descqReconfig (descqStop d ctxCleared) qconf numVecs).1

/-- What stop and reconfiguration keep. -/
theorem again_spec (d : Descq) (ctxCleared : Bool) (qconf : QueueConf) (numVecs : ℕ)
    (hen : d.enabled = true) :
    let d' := d.again ctxCleared qconf numVecs
    d'.conf.descRngSzIdx = qconf.descRngSzIdx ∧ d'.conf.c2hBufSzIdx = qconf.c2hBufSzIdx ∧
      d'.isRx = d.isRx ∧ d'.flq = (if d.descWrb.alloc then {} else d.flq) ∧
      d'.err = d.err ∧ d'.workList = d.workList ∧ d'.pendList = d.pendList ∧
      d'.color = d.color ∧ d'.cidxWrbPend = d.cidxWrbPend ∧ d'.descWrbCur = d.descWrbCur := by
  have hflags : (descqStop d ctxCleared).enabled = true ∧ (descqStop d ctxCleared).inited = false ∧
      (descqStop d ctxCleared).online = false := by
    refine ⟨?_, rfl, rfl⟩
    unfold descqStop qdmaDescqFreeResource qdmaDescqContextClear
    simp only
    split_ifs <;> exact hen
  have hconf : descqReconfig (descqStop d ctxCleared) qconf numVecs =
      (qdmaDescqReconfig (descqStop d ctxCleared) qconf numVecs, 0) := by
    unfold descqReconfig
    rw [hflags.1, hflags.2.1, hflags.2.2]
    rfl
  intro d'
  have hd : d' = qdmaDescqReconfig (descqStop d ctxCleared) qconf numVecs := congrArg Prod.fst hconf
  rw [hd]
  unfold descqStop qdmaDescqFreeResource qdmaDescqContextClear
  simp only
  split_ifs <;> exact ⟨rfl, rfl, rfl, rfl, rfl, rfl, rfl, rfl, rfl, rfl⟩

/-- **A restart is a fresh start** exactly when no completion was in error and no request was
left on a list. -/
theorem restart_fresh_iff {d : Descq} {env env' : StartEnv} {csr : GlobalCsrConf}
    {evs : List QLabel} {s : QSys} {ctxCleared : Bool} {numVecs : ℕ} (hadd : AddedQueue d)
    (hcsr : env.csr = some csr) (hok : (descqStart d env).2 = 0)
    (hrun : Run QSys.step (fun _ l => l.Traffic) { q := (descqStart d env).1 } evs s)
    (hcsr' : env'.csr = some csr)
    (hok' : (descqStart (s.q.again ctxCleared d.conf numVecs) env').2 = 0) :
    (descqStart (s.q.again ctxCleared d.conf numVecs) env').1.dataPath
        = (descqStart d env).1.dataPath ↔
      s.q.err = false ∧ s.q.workList = [] ∧ s.q.pendList = [] := by
  obtain ⟨hen, hkind, halloc, hrx⟩ := descqStart_fixed hcsr hok
  have hfixed : s.q.fixed = (descqStart d env).1.fixed :=
    hrun.invariant (I := fun s => s.q.fixed = (descqStart d env).1.fixed) rfl
      (fun s _ h hl => (fixed_step s hl).trans h)
  have hisRx : s.q.isRx = d.isRx := by
    have hconf : s.q.conf = (descqStart d env).1.conf := congrArg (·.1) hfixed
    unfold Descq.isRx at hkind ⊢
    rw [hconf, hkind]
  have hwrb : s.q.descWrb.alloc = d.isRx := by
    have hw : s.q.descWrb.alloc = (descqStart d env).1.descWrb.alloc :=
      congrArg (·.2.2.2.2) hfixed
    rw [hw, halloc, hadd.wrbAlloc, Bool.or_false]
  -- traffic does not touch the receive part of a queue that sends
  have hpart : d.isRx = false → s.q.rxPart = (descqStart d env).1.rxPart := by
    intro hno
    exact (hrun.invariant (I := fun s => s.q.isRx = false ∧ s.q.rxPart = (descqStart d env).1.rxPart)
      ⟨hkind.trans hno, rfl⟩ (fun s l h hl => ⟨by
        have hf := congrArg (fun x => x.1.st && x.1.c2h) (fixed_step s hl)
        exact hf.trans h.1, (rxPart_step s hl h.1).trans h.2⟩)).2
  have hen' : s.q.enabled = true := (congrArg (·.2.1) hfixed).trans hen
  obtain ⟨a1, a2, a3, a4, a5, a6, a7, a8, a9, a10⟩ :=
    again_spec s.q ctxCleared d.conf numVecs hen'
  have hsame : SameStart d (s.q.again ctxCleared d.conf numVecs) csr := by
    refine ⟨by rw [a1], by rw [a2], a3.trans hisRx, ⟨hadd.flq, ?_⟩, fun hno => ?_⟩
    · rw [a4, hwrb]
      cases hno : d.isRx with
      | true => rfl
      | false =>
          have hf : s.q.flq = d.flq := congrArg (·.2.1) ((hpart hno).trans (hrx hno))
          rw [if_neg (by decide), hf, hadd.flq]
    · have hp := (hpart hno).trans (hrx hno)
      exact ⟨a8.trans (congrArg (·.2.2.1) hp), a9.trans (congrArg (·.2.2.2.2.2.1) hp),
        a10.trans (congrArg (·.2.2.2.2.2.2) hp)⟩
  -- what a start leaves of the data path comes from the queue before it
  have hself : SameStart d d csr :=
    ⟨rfl, rfl, rfl, ⟨hadd.flq, hadd.flq⟩, fun _ => ⟨rfl, rfl, rfl⟩⟩
  have hfirst := hself.dataPath hcsr hcsr hok hok
  rw [hsame.dataPath hcsr hcsr' hok hok', a5, a6, a7]
  rw [hadd.err, hadd.workList, hadd.pendList] at hfirst
  constructor
  · intro heq
    rw [hfirst] at heq
    exact ⟨congrArg DataPath.err heq, congrArg DataPath.workList heq, congrArg DataPath.pendList heq⟩
  · rintro ⟨h1, h2, h3⟩
    rw [h1, h2, h3]
    exact hfirst.symm

/-! ## Concrete restarts -/

/-- A read is served by a packet of its length. -/
def cleanTraffic : List QLabel :=
  [.submit (readReq 4) false, .pend 0,
    .device 0 (fun o => if o = 0 then cmplWord true 4 else 0) 1 (fun _ _ => 7),
    .service 0 (fun _ => .noMem)]

/-- The entry written has its error bit set, and the read gives up. -/
def errorTraffic : List QLabel :=
  [.submit (readReq 4) false, .pend 0, .device 0 (fun o => if o = 0 then 14 else 0) 1 (fun _ _ => 7),
    .service 0 (fun _ => .noMem), .wait 0]

theorem addedC2h_added : AddedQueue addedC2h := ⟨rfl, rfl, rfl, rfl, rfl, rfl⟩

theorem restart_fresh_clean :
    let s := cleanTraffic.foldl QSys.step { q := startedRx.q }
    (descqStart (s.q.again true addedC2h.conf 0) (goodStart (csrOf 4))).1.dataPath
      = startedRx.q.dataPath :=
  (restart_fresh_iff addedC2h_added rfl (by decide +kernel)
    (Run.under (fun _ l => QLabel.Traffic l) cleanTraffic (by decide +kernel)) rfl
    (by decide +kernel)).mpr ⟨by decide +kernel, by decide +kernel, by decide +kernel⟩

/-- **The error flag survives a restart.** -/
theorem error_survives_restart :
    let s := errorTraffic.foldl QSys.step { q := startedRx.q }
    Run QSys.step (fun _ l => l.Traffic) { q := startedRx.q } errorTraffic s ∧
      (descqStart (s.q.again true addedC2h.conf 0) (goodStart (csrOf 4))).2 = 0 ∧
      (descqStart (s.q.again true addedC2h.conf 0) (goodStart (csrOf 4))).1.dataPath.err
        ≠ startedRx.q.dataPath.err :=
  ⟨Run.of_admits _ (by decide +kernel), by decide +kernel, by decide +kernel⟩

end Qdma
