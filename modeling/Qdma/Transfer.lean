/-
# What the device moves

A queue together with its device and the memories on both sides: the device takes the next
descriptor off the ring, at an index of its own, and moves the bytes it asks for; later it
reports how far it has come.  Everything may happen in any order, and from outside the memories
may change at any time.

`Rig.view` shows such a system as a line of jobs, one for each request, whose operations are
the moves its scatter list asks for.  `rig_refines` says that every run of the system is a run
of that line: whatever the ring does, requests are carried out completely, once and in order,
and a request has been carried out when it is handed back.
-/
import Qdma.CreditFifo
import Qdma.MmPasses
import Qdma.JobLine
import Qdma.Scatter

namespace Qdma

open RingIndex Exec AddrSpan JobLine Blocks

/-! ## Moves -/

/-- The memories on both sides, and the stream that leaves the device. -/
structure World where
  host : ℕ → UInt8
  card : ℕ → UInt8
  stream : List UInt8 := []

/-- Bytes to be moved between two addresses; a stream has none on the card. -/
structure Xfer where
  host : ℕ
  card : ℕ
  len : ℕ
  deriving DecidableEq

/-- The addresses of a move on the host. -/
def Xfer.hostSpan (m : Xfer) : List ℕ := span (2 ^ 64) m.host m.len

/-- The addresses of a move on the card. -/
def Xfer.cardSpan (m : Xfer) : List ℕ := span (2 ^ 64) m.card m.len

/-- A move carried out on a queue of this mode and direction. -/
def Xfer.act (conf : QueueConf) (m : Xfer) (w : World) : World :=
  if conf.st then { w with stream := w.stream ++ m.hostSpan.map w.host }
  else if conf.c2h then { w with host := Scatter.write w.host m.hostSpan (m.cardSpan.map w.card) }
  else { w with card := Scatter.write w.card m.cardSpan (m.hostSpan.map w.host) }

/-- The move a descriptor asks for. -/
def Desc.move (conf : QueueConf) (s : Desc) : Xfer :=
  if conf.st then ⟨s.h2c.srcAddr, 0, s.h2c.len⟩
  else ⟨s.mm.host conf.c2h, s.mm.card conf.c2h, s.len false⟩

/-- The moves for ranges of the host, which follow one another on the card from `ep` on. -/
def moves (st : Bool) : ℕ → List (ℕ × ℕ) → List Xfer
  | _, [] => []
  | ep, r :: rs => ⟨r.1, if st then 0 else ep, r.2⟩ :: moves st (u64 (ep + r.2)) rs

/-- The moves a request asks for. -/
def Request.moves (st : Bool) (req : Request) : List Xfer :=
  Qdma.moves st (u64 req.epAddr) (req.sgl.map SwSg.range)

@[simp] theorem length_moves (st : Bool) (ep : ℕ) (rs : List (ℕ × ℕ)) :
    (moves st ep rs).length = rs.length := by
  induction rs generalizing ep with
  | nil => rfl
  | cons r rs ih => rw [moves, List.length_cons, List.length_cons, ih]

@[simp] theorem Request.length_moves (st : Bool) (req : Request) :
    (req.moves st).length = req.sgcnt := by
  rw [Request.moves, Qdma.length_moves, List.length_map]
  rfl

theorem moves_take (st : Bool) (ep k : ℕ) (rs : List (ℕ × ℕ)) :
    (moves st ep rs).take k = moves st ep (rs.take k) := by
  induction rs generalizing ep k with
  | nil => simp [moves]
  | cons r rs ih =>
      cases k with
      | zero => rfl
      | succ k => rw [moves, List.take_succ_cons, List.take_succ_cons, moves, ih]

theorem u64_add_mod (a b : ℕ) : u64 (u64 a + b) = u64 (a + b) := Nat.mod_add_mod _ _ _

/-- The moves that are left begin where the bytes before them end. -/
theorem moves_drop (st : Bool) (ep k : ℕ) (rs : List (ℕ × ℕ)) :
    (moves st (u64 ep) rs).drop k = moves st (u64 (ep + total (rs.take k))) (rs.drop k) := by
  induction rs generalizing ep k with
  | nil => simp [moves]
  | cons r rs ih =>
      cases k with
      | zero => simp [total]
      | succ k =>
          rw [moves, List.drop_succ_cons, List.drop_succ_cons, u64_add_mod, ih,
            List.take_succ_cons]
          congr 2
          simp only [total, List.map_cons, List.sum_cons]
          omega

/-- The move of an entry. -/
theorem getElem_moves {st : Bool} {ep : ℕ} {rs : List (ℕ × ℕ)} {k : ℕ} (h : k < rs.length)
    (h' : k < (moves st (u64 ep) rs).length) :
    (moves st (u64 ep) rs)[k]
      = ⟨rs[k].1, if st then 0 else u64 (ep + total (rs.take k)), rs[k].2⟩ := by
  have hdrop := moves_drop st ep k rs
  rw [List.drop_eq_getElem_cons h', List.drop_eq_getElem_cons h, moves, List.cons.injEq] at hdrop
  exact hdrop.1

/-! ## The moves of a pass -/

/-- Entries that fit a descriptor make one piece each. -/
theorem sglPieces_range {st : Bool} {sgl : List SwSg}
    (h : ∀ sg ∈ sgl, 0 < sg.len ∧ sg.len ≤ descLenMax st) :
    (sglPieces st sgl).map Piece.range = sgl.map SwSg.range := by
  induction sgl with
  | nil => rfl
  | cons sg sgl ih =>
      obtain ⟨h0, h1⟩ := h sg (List.mem_cons_self ..)
      obtain ⟨n, hn⟩ : ∃ n, sg.len = n + 1 := ⟨sg.len - 1, by omega⟩
      rw [sglPieces, List.map_append, ih (fun s hs => h s (List.mem_cons_of_mem _ hs)),
        List.map_cons]
      have hone : ∀ max, sg.len ≤ max → cut max sgl.isEmpty sg.len sg.len sg.dmaAddr
          = [⟨sg.len, sg.dmaAddr, sgl.isEmpty⟩] := by
        intro max hmax
        rw [hn] at hmax ⊢
        rw [cut, if_neg (Nat.succ_ne_zero n), Nat.min_eq_left hmax, Nat.sub_self, cut_zero]
      have hentry : entryPieces st sg sgl.isEmpty = [⟨sg.len, sg.dmaAddr, sgl.isEmpty⟩] := by
        unfold entryPieces stPieces mmPieces
        cases st with
        | true =>
            rw [if_pos rfl, if_neg (by omega)]
            exact hone pageSize h1
        | false =>
            rw [if_neg (by decide)]
            exact hone qdmaDescBlenMax h1
      rw [hentry]
      rfl

/-- Descriptors with these addresses and lengths ask for these moves. -/
theorem map_move_of_ranges {conf : QueueConf} (hst : conf.st = false) {new : List Desc}
    {ps : List Piece} {ep : ℕ}
    (hhost : new.map (Desc.hostRange conf.c2h) = ps.map Piece.range)
    (hcard : new.map (Desc.cardRange conf.c2h) = (cards ep ps).zip (ps.map Piece.len)) :
    new.map (Desc.move conf) = moves false ep (ps.map Piece.range) := by
  induction ps generalizing new ep with
  | nil =>
      rw [List.map_nil, List.map_eq_nil_iff] at hhost
      rw [hhost]
      rfl
  | cons p ps ih =>
      cases new with
      | nil => cases hhost
      | cons s new =>
          rw [List.map_cons, List.map_cons, List.cons.injEq] at hhost
          rw [List.map_cons, cards, List.map_cons, List.zip_cons_cons, List.cons.injEq] at hcard
          obtain ⟨hs, hhost⟩ := hhost
          obtain ⟨hc, hcard⟩ := hcard
          rw [List.map_cons, List.map_cons, moves, ih hhost hcard]
          congr 1
          simp only [Desc.hostRange, Desc.cardRange, Piece.range, Prod.mk.injEq] at hs hc
          simp only [Desc.move, hst, Bool.false_eq_true, if_false, Piece.range, hs.1, hc.1, hs.2]

/-- What a call of `qdma_descq_proc_sgt_request` writes for a memory-mapped request. -/
theorem mmRequest_moves {q : Descq} {cb : SgtReqCb} (hst : q.conf.st = false) (hring : RingInv q)
    (hmem : cb ∈ q.workList) (hnd : (q.reqs.map SgtReqCb.id).Nodup) (h0 : q.avail ≠ 0)
    {i off : ℕ} (hr : resumeAt cb = some (i, off))
    (hne : sglPieces false (cb.req.sgl.drop i) ≠ []) :
    (stretch q.conf.rngsz (descqMmProcRequest q cb).1.desc.slot q.pidx
        (descqMmProcRequest q cb).1.pidx).map (Desc.move q.conf)
      = moves false (u64 (cb.req.epAddr + cb.offset))
          (((sglPieces false (cb.req.sgl.drop i)).take q.avail).map Piece.range) := by
  have h1 := hring.one_le
  have ha := hring.avail
  have hready : MmReady q.conf.c2h { cb := cb } q :=
    ⟨⟨⟨hring.pidx_lt, by omega, hring.rung⟩, ⟨rfl, le_refl 0⟩, hmem, hnd⟩, hst, rfl⟩
  obtain ⟨new, hout, hhost, hcard⟩ := (mmPass_of_ready hready h0 hr hne).out
  have hnew : new = stretch q.conf.rngsz (descqMmProcRequest q cb).1.desc.slot q.pidx
      (descqMmProcRequest q cb).1.pidx := hout.symm
  rw [← hnew]
  exact map_move_of_ranges hst hhost hcard

/-- The same for an ST H2C request. -/
theorem stRequest_moves {q : Descq} {cb : SgtReqCb} (hst : q.conf.st = true) (hring : RingInv q)
    (h0 : q.avail ≠ 0) {i off : ℕ} (hr : resumeAt cb = some (i, off)) (ep : ℕ) :
    (stretch q.conf.rngsz (descqProcStH2cRequest q cb).1.desc.slot q.pidx
        (descqProcStH2cRequest q cb).1.pidx).map (Desc.move q.conf)
      = moves true ep (((sglPieces true (cb.req.sgl.drop i)).take q.avail).map Piece.range) := by
  have h1 := hring.one_le
  have ha := hring.avail
  have hpg : 0 < pageSize := by decide
  have hzero : ∀ (ep : ℕ) (rs : List (ℕ × ℕ)),
      moves true ep rs = rs.map (fun r => ⟨r.1, 0, r.2⟩) := by
    intro ep rs
    induction rs generalizing ep with
    | nil => rfl
    | cons r rs ih => rw [moves, ih, List.map_cons, if_pos rfl]
  obtain ⟨d', hrun, hpost, hcar⟩ := stRequest_posted hpg (by decide) hst hring.pidx_lt (by omega)
    hring.rung h0 hr rfl
  rw [stSglPiecesOf_pageSize] at hrun hpost hcar
  rw [descqProcStH2cRequestOf_pageSize] at hrun
  generalize hps : (sglPieces true (cb.req.sgl.drop i)).take q.avail = ps at hrun hpost hcar
  have hlen : ps.length < q.conf.rngsz := by
    rw [← hps, List.length_take]
    omega
  rw [hrun, hzero, (chargeRequest_frame d' cb _ _).desc, (chargeRequest_frame d' cb _ _).pidx]
  show (stretch q.conf.rngsz d'.desc.slot q.pidx d'.pidx).map _ = _
  refine List.ext_getElem ?_ ?_
  · rw [List.length_map, length_stretch, hpost.pidx, dist_adv hring.pidx_lt hlen]
    simp
  · intro j h1 h2
    rw [List.length_map, List.length_map] at h2
    obtain ⟨haddr, hl, -⟩ := hcar j h2
    rw [List.getElem_map, getElem_stretch, List.getElem_map, List.getElem_map]
    simp only [Desc.move, hst, if_true, haddr, hl, Piece.range]

/-- **What serving the head of `work_list` hands over**: its next moves, as many as fit. -/
theorem wrkProcOne_moves {queued : List ℕ} {q : Descq} {cb : SgtReqCb} {rest : List SgtReqCb}
    (hinv : CreditInv q) (h : FifoInv queued q) (hw : q.workList = cb :: rest)
    (hpos : 0 < q.avail) (hne : cb.req.sgl ≠ []) :
    (wrkProcOne q cb).regs.handed.map (Desc.move q.conf)
      = q.regs.handed.map (Desc.move q.conf)
        ++ ((cb.req.moves q.conf.st).drop cb.descNr).take q.avail := by
  have hmem : cb ∈ q.workList := hw ▸ List.mem_cons_self ..
  have hpart := h.partway cb hmem
  have hat := hinv.atEntry cb hmem
  obtain ⟨i, hi, -, -⟩ := resumeAt_atEntry hat
  have hdrop : cb.req.sgl.drop i = cb.req.sgl.drop cb.descNr := by
    rw [← hpart.left hat, leftEntries, hi]
  have hrange : ((sglPieces q.conf.st (cb.req.sgl.drop i)).take q.avail).map Piece.range
      = ((cb.req.sgl.map SwSg.range).drop cb.descNr).take q.avail := by
    rw [List.map_take, hdrop, sglPieces_range, List.map_drop]
    exact fun sg hsg => hpart.wf.1 sg (List.mem_of_mem_drop hsg)
  have hleft : sglPieces q.conf.st (cb.req.sgl.drop i) ≠ [] := by
    intro hnil
    have hlen := hpart.sum_leftDescs hat
    have hlen0 : 0 < cb.req.sgcnt := List.length_pos_iff.mpr hne
    have hmore := hpart.more
    rw [← length_leftPieces, leftPieces, leftEntries, hi, hnil, List.length_nil] at hlen
    omega
  obtain ⟨k, hk⟩ := wrkProcOne_extends hinv.ring cb
  have hsame : (wrkProcOne q cb).desc = (qdmaDescqProcSgtRequest q cb).1.desc ∧
      (wrkProcOne q cb).pidx = (qdmaDescqProcSgtRequest q cb).1.pidx := by
    unfold wrkProcOne
    split_ifs <;> exact ⟨rfl, rfl⟩
  rw [hk.handed, hsame.1, hsame.2, List.map_append, Request.moves, moves_drop, moves_take,
    ← List.map_take, total_sgl, ← hpart.entries, ← hrange]
  congr 1
  unfold qdmaDescqProcSgtRequest
  cases hst : q.conf.st with
  | false =>
      rw [hst] at hleft
      exact mmRequest_moves hst hinv.ring hmem hinv.nodup (by omega) hi hleft
  | true =>
      have hkind := hinv.ring.kind
      rw [hst, Bool.true_and] at hkind
      rw [hkind]
      exact stRequest_moves hst hinv.ring (by omega) hi _

/-! ## What has been handed to the device -/

/-- The moves charged to a request. -/
def SgtReqCb.begun (st : Bool) (cb : SgtReqCb) : List Xfer := (cb.req.moves st).take cb.descNr

/-- The requests that were handed back, in this order. -/
def Descq.doneCbs (q : Descq) : List SgtReqCb := q.finished.map Done.cb

/-- **The descriptors the device was given** ask for the moves of the requests handed back and
pending, then for those the others have begun with. -/
def Handed (q : Descq) : Prop :=
  q.regs.handed.map (Desc.move q.conf)
    = (q.doneCbs ++ q.pendList).flatMap (fun cb => cb.req.moves q.conf.st)
      ++ q.workList.flatMap (SgtReqCb.begun q.conf.st)

theorem begun_nil {st : Bool} {l : List SgtReqCb} (h : ∀ cb ∈ l, cb.descNr = 0) :
    l.flatMap (SgtReqCb.begun st) = [] := by
  rw [List.flatMap_eq_nil_iff]
  intro cb hcb
  rw [SgtReqCb.begun, h cb hcb, List.take_zero]

/-- A request with an entry to go on with does not fail. -/
theorem Partway.leftPieces_ne {st : Bool} {cb : SgtReqCb} (h : Partway st cb) (hat : AtEntry cb)
    (hne : cb.req.sgl ≠ []) : leftPieces st cb ≠ [] := by
  intro hnil
  have hlen := h.sum_leftDescs hat
  have hlen0 : 0 < cb.req.sgcnt := List.length_pos_iff.mpr hne
  have hmore := h.more
  rw [← length_leftPieces, hnil, List.length_nil] at hlen
  omega

/-- The name and the moves of a request. -/
def SgtReqCb.job (st : Bool) (cb : SgtReqCb) : Job ℕ Xfer := ⟨cb.id, cb.req.moves st⟩

/-- What a worker pass that began on `q` keeps. -/
structure Passing (queued : List ℕ) (q q' : Descq) : Prop where
  fifo : FifoInv queued q'
  conf : q'.conf = q.conf
  finished : q'.finished = q.finished
  nonempty : ∀ cb ∈ q'.workList, cb.req.sgl ≠ []
  jobs : q'.reqs.map (SgtReqCb.job q.conf.st) = q.reqs.map (SgtReqCb.job q.conf.st)
  handed : Handed q'

/-- **Serving the head** hands over its next moves. -/
theorem Passing.serve {queued : List ℕ} {q₀ q : Descq} {cb : SgtReqCb} {rest : List SgtReqCb}
    (hinv : CreditInv q) (hok : PassOk q) (hw : q.workList = cb :: rest) (hpos : 0 < q.avail)
    (h : Passing queued q₀ q) : Passing queued q₀ (wrkProcOne q cb) := by
  have hmem : cb ∈ q.workList := hw ▸ List.mem_cons_self ..
  have hne := h.nonempty cb hmem
  have hrest : ∀ c ∈ rest, c.req.sgl ≠ [] := by
    intro c hc
    exact h.nonempty c (hw ▸ List.mem_cons_of_mem _ hc)
  have hpart := h.fifo.partway cb hmem
  have hat := hinv.atEntry cb hmem
  have hs := wrkProcOne_head hinv hok hw hpos
  have hmoves := wrkProcOne_moves hinv h.fifo hw hpos hne
  have hfifo := h.fifo.serve hinv hw hs
  have htail : ∀ c ∈ rest, c.descNr = 0 := by
    have hfresh := hinv.fresh
    rwa [hw] at hfresh
  have hhanded := h.handed
  unfold Handed at hhanded
  rw [hw, List.flatMap_cons, begun_nil htail, List.append_nil] at hhanded
  have hjobs := h.jobs
  have hreqs : q.reqs = q.pendList ++ cb :: rest := by
    unfold Descq.reqs
    rw [hw]
  rw [hreqs] at hjobs
  generalize wrkProcOne q cb = q' at hs hmoves hfifo
  cases hs with
  | failed _ _ hnil _ => exact absurd hnil (hpart.leftPieces_ne hat hne)
  | @moved d' ps hps hp hall =>
      have hconf : d'.conf = q.conf := by
        rw [hp.frame]
        rfl
      obtain ⟨hlen, -⟩ := hpart.pieces hat hps
      have hfull := hpart.all_posted hat hps hall
      refine ⟨(hfifo.resolve_right (Nat.lt_irrefl _)).1, hconf.trans h.conf, h.finished, hrest, ?_,
        ?_⟩
      · rw [← hjobs]
        show ((q.pendList ++ [_]) ++ rest).map _ = _
        rw [List.append_assoc, List.singleton_append]
        simp only [List.map_append, List.map_cons]
        rfl
      · show d'.regs.handed.map (Desc.move d'.conf) = (q.doneCbs ++ (q.pendList ++ [_])).flatMap
          (fun c : SgtReqCb => c.req.moves d'.conf.st) ++ rest.flatMap (SgtReqCb.begun d'.conf.st)
        rw [begun_nil htail, hconf, List.append_nil, ← List.append_assoc, List.flatMap_append,
          List.flatMap_singleton]
        have hrest : ((cb.req.moves q.conf.st).drop cb.descNr).take q.avail
            = (cb.req.moves q.conf.st).drop cb.descNr := by
          apply List.take_of_length_le
          rw [List.length_drop, Request.length_moves]
          omega
        refine hmoves.trans ?_
        rw [hhanded, List.append_assoc, SgtReqCb.begun, hrest, List.take_append_drop]
  | @stays d' ps hps hp hall hmore hat' =>
      have hconf : d'.conf = q.conf := by
        rw [hp.frame]
        rfl
      refine ⟨(hfifo.resolve_right (Nat.lt_irrefl _)).1, hconf.trans h.conf, h.finished, ?_, ?_,
        ?_⟩
      · intro c hc
        rcases List.mem_cons.mp hc with rfl | hc
        · exact hne
        · exact hrest c hc
      · rw [← hjobs]
        show (q.pendList ++ _ :: rest).map _ = _
        simp only [List.map_append, List.map_cons]
        rfl
      · show d'.regs.handed.map (Desc.move d'.conf) = (q.doneCbs ++ q.pendList).flatMap
          (fun c : SgtReqCb => c.req.moves d'.conf.st) ++ (_ :: rest).flatMap (SgtReqCb.begun d'.conf.st)
        rw [List.flatMap_cons, begun_nil htail, hconf, List.append_nil]
        refine hmoves.trans ?_
        rw [hhanded, List.append_assoc]
        congr 1
        show _ = (cb.req.moves q.conf.st).take (cb.descNr + ps.length)
        rw [hall, List.take_add, SgtReqCb.begun]

/-- **A worker pass** serves requests without failing one. -/
theorem passing_wrkProc {queued : List ℕ} {q : Descq} (hinv : CreditInv q)
    (hfifo : FifoInv queued q) (hne : ∀ cb ∈ q.workList, cb.req.sgl ≠ []) (h : Handed q) :
    Passing queued q (qdmaThreadWrkProc q) :=
  (serve_rule (P := Passing queued q) (fun _ _ _ hinv hok hw hpos hp => hp.serve hinv hok hw hpos)
    hinv (hfifo.passOk hinv) ⟨hfifo, rfl, rfl, hne, rfl, h⟩).2

/-! ## The system -/

/-- A queue with its callers, the index its device has come to, and the memories. -/
structure Rig where
  sys : Sys
  exe : ℕ
  world : World

/-- The steps of a run: those of the driver, the next descriptor carried out, and whatever
happens to the memories outside. -/
inductive Deed where
  | drv (l : Label)
  | exec
  | outside (f : World → World)

/-- The queue of a system. -/
def Rig.q (r : Rig) : Descq := r.sys.q

/-- One step of the system. -/
def Rig.step (r : Rig) : Deed → Rig
  | .drv l => { r with sys := r.sys.step l }
  | .exec =>
      { r with
        exe := adv r.q.conf.rngsz r.exe 1
        world := ((r.q.desc.slot r.exe).move r.q.conf).act r.q.conf r.world }
  | .outside f => { r with world := f r.world }

/-- Requests are well formed and have an entry; the device carries out what it was told of and
reports what it has carried out; nobody gives up a wait. -/
def Rig.Ok (r : Rig) : Deed → Prop
  | .drv (.submit req _) => WellFormed r.q.conf.st req ∧ req.sgl ≠ []
  | .drv (.hw c) => c < r.q.conf.rngsz ∧
      dist r.q.conf.rngsz r.q.desc.wbCidx c ≤ dist r.q.conf.rngsz r.q.desc.wbCidx r.exe
  | .drv (.wait id) => id ∈ r.sys.waiters ∧ (r.q.doneCb id).isSome
  | .exec => r.exe ≠ r.q.regs.pidx
  | _ => True

instance Rig.decidableOk (r : Rig) (d : Deed) : Decidable (r.Ok d) :=
  match d with
  | .drv (.submit _ _) => inferInstanceAs (Decidable (_ ∧ _))
  | .drv (.hw _) => inferInstanceAs (Decidable (_ ∧ _))
  | .drv (.wait _) => inferInstanceAs (Decidable (_ ∧ _))
  | .exec => inferInstanceAs (Decidable (¬ _ = _))
  | .drv .worker | .drv .wb | .outside _ => inferInstanceAs (Decidable True)

/-- A queue just started, before memories in any state. -/
def Descq.rig (q : Descq) (w : World) : Rig := { sys := { q := q }, exe := q.cidx, world := w }

/-- **What every run maintains.** -/
structure RigInv (r : Rig) : Prop where
  count : CountInv r.sys
  nonempty : ∀ cb ∈ r.q.workList, cb.req.sgl ≠ []
  handed : Handed r.q
  exe_lt : r.exe < r.q.conf.rngsz
  reported : dist r.q.conf.rngsz r.q.cidx r.q.desc.wbCidx
    ≤ dist r.q.conf.rngsz r.q.cidx r.exe
  rung : dist r.q.conf.rngsz r.q.cidx r.exe ≤ dist r.q.conf.rngsz r.q.cidx r.q.pidx

theorem RigInv.credit {r : Rig} (h : RigInv r) : CreditInv r.q := h.count.run.credit

theorem RigInv.fifo {r : Rig} (h : RigInv r) : FifoInv r.sys.queued r.q := h.count.run.fifo

/-! ## The system as a line of jobs -/

/-- The number of descriptors the device has carried out. -/
def Rig.executed (r : Rig) : ℕ :=
  r.q.regs.handed.length - dist r.q.conf.rngsz r.exe r.q.pidx

/-- The jobs of the requests `l`. -/
def Rig.jobs (r : Rig) (l : List SgtReqCb) : List (Job ℕ Xfer) :=
  l.map (SgtReqCb.job r.q.conf.st)

/-- **The system as a line**: a job for each request on the lists, less the moves that are made. -/
def Rig.view (r : Rig) : Line World ℕ Xfer :=
  { world := r.world
    jobs := skip (r.executed - (todo (r.jobs r.q.doneCbs)).length) (r.jobs r.q.reqs)
    retired := r.q.doneCbs.map SgtReqCb.id }

/-- What a step of the system is on the line. -/
def Rig.acts (r : Rig) : Deed → List (Act World ℕ Xfer)
  | .drv (.submit req mapped) =>
      if (qdmaRequestSubmit r.q r.sys.nreq req mapped).2 = none then
        [.join ⟨r.sys.nreq, req.moves r.q.conf.st⟩]
      else []
  | .drv .wb =>
      List.replicate ((descqMmNH2cWb r.q).finished.length - r.q.finished.length) .retire
  | .drv _ => []
  | .exec => [.perform]
  | .outside f => [.outside f]

@[simp] theorem todo_jobs (r : Rig) (l : List SgtReqCb) :
    todo (r.jobs l) = l.flatMap (fun cb => cb.req.moves r.q.conf.st) := by
  rw [todo, Rig.jobs, List.flatMap_map]
  rfl

theorem length_flatMap_moves (st : Bool) (l : List SgtReqCb) :
    (l.flatMap (fun cb => cb.req.moves st)).length = (fullSlots l).length := by
  rw [fullSlots, length_slots, List.length_flatMap]
  simp

/-- Nothing that was handed back is still in flight. -/
theorem finished_le_consumed {s : Sys} (h : FifoRun s) :
    (fullSlots s.q.doneCbs).length ≤ s.q.consumed.length := by
  by_contra hlt
  rw [Nat.not_le] at hlt
  have hsplit := consumed_append_held h.credit.ring
  have hhanded := h.fifo.handed
  rw [fullSlots, slots_append, List.append_assoc] at hhanded
  rw [hhanded, ← Descq.doneCbs] at hsplit
  change _ = fullSlots s.q.doneCbs ++ _ at hsplit
  -- the first descriptor in flight would belong to such a request
  have hget := congrArg (fun l => l[s.q.consumed.length]?) hsplit
  rw [List.getElem?_append_right (by rw [List.length_map]), List.length_map, Nat.sub_self,
    List.getElem?_append_left hlt, List.getElem?_eq_getElem hlt] at hget
  have hheld : (fullSlots s.q.doneCbs)[s.q.consumed.length] ∈ s.q.held :=
    List.mem_of_getElem? hget
  obtain ⟨cb, hcb, hk, -⟩ := (mem_slots _ _).mp (List.getElem_mem hlt)
  rw [← hk] at hheld
  refine h.credit.not_held (fun hin => ?_) hheld
  have hnd : ((s.q.doneCbs ++ s.q.reqs).map SgtReqCb.id).Nodup := by
    rw [Descq.doneCbs, h.fifo.order]
    exact h.rising.imp (fun hlt => Nat.ne_of_lt hlt)
  rw [List.map_append] at hnd
  exact (List.nodup_append.mp hnd).2.2 _ (List.mem_map_of_mem hcb) _ hin rfl

/-- What the device has carried out lies between what was consumed and what was handed over. -/
theorem RigInv.executed {r : Rig} (h : RigInv r) :
    r.q.consumed.length ≤ r.executed ∧
      r.executed + dist r.q.conf.rngsz r.exe r.q.pidx = r.q.regs.handed.length := by
  have hring := h.credit.ring
  have hsplit := congrArg List.length (consumed_append hring)
  rw [List.length_append, length_stretch] at hsplit
  have hd := dist_add_dist hring.cidx_lt h.exe_lt hring.pidx_lt h.rung
  have hr := h.rung
  unfold Rig.executed
  omega

/-- The moves of the requests handed back are made. -/
theorem RigInv.retired_le {r : Rig} (h : RigInv r) :
    (todo (r.jobs r.q.doneCbs)).length ≤ r.executed := by
  rw [todo_jobs, length_flatMap_moves]
  exact (finished_le_consumed h.count.run).trans h.executed.1

/-- The descriptors handed over ask for the first moves of all requests. -/
theorem RigInv.prefix {r : Rig} (h : RigInv r) :
    r.q.regs.handed.map (Desc.move r.q.conf)
      <+: todo (r.jobs r.q.doneCbs) ++ todo (r.jobs r.q.reqs) := by
  have hhanded := h.handed
  unfold Handed at hhanded
  rw [hhanded, todo_jobs, todo_jobs, Descq.reqs, List.flatMap_append, List.flatMap_append,
    List.append_assoc, ← List.append_assoc, ← List.append_assoc]
  refine (List.prefix_append_right_inj _).mpr ?_
  cases hw : r.q.workList with
  | nil => exact List.nil_prefix
  | cons cb rest =>
      have hfresh : ∀ c ∈ rest, c.descNr = 0 := by
        have hfresh := h.credit.fresh
        rwa [hw] at hfresh
      rw [List.flatMap_cons, begun_nil hfresh, List.append_nil, List.flatMap_cons]
      exact (List.take_prefix _ _).trans (List.prefix_append _ _)

/-- All the device has carried out belongs to requests that were handed back or are on the
lists. -/
theorem RigInv.executed_le {r : Rig} (h : RigInv r) :
    r.executed ≤ (todo (r.jobs r.q.doneCbs)).length + (todo (r.jobs r.q.reqs)).length := by
  have hlen := h.prefix.length_le
  rw [List.length_map, List.length_append] at hlen
  have := h.executed.2
  omega

/-! ## Each step -/

/-- The view is one of the queue, the index of the device and the memories. -/
theorem view_congr {r r' : Rig} (hq : r'.q = r.q) (he : r'.exe = r.exe)
    (hw : r'.world = r.world) : r'.view = r.view := by
  unfold Rig.view Rig.executed Rig.jobs
  rw [hq, he, hw]

/-- A driver step is legal for the queue alone and keeps requests on the lists. -/
theorem RigInv.admitted {r : Rig} (h : RigInv r) {l : Label} (hok : r.Ok (.drv l)) :
    Legal r.sys l ∧ Completing r.sys l := by
  have hring := h.credit.ring
  cases l with
  | submit req mapped => exact ⟨trivial, hok.1⟩
  | worker =>
      refine ⟨trivial, ?_⟩
      show (qdmaThreadWrkProc r.q).finished.length = r.q.finished.length
      rw [(passing_wrkProc h.credit h.fifo h.nonempty h.handed).finished]
  | hw c =>
      have h1 := dist_add_dist hring.cidx_lt hring.wb_lt h.exe_lt h.reported
      have h2 := dist_add_dist hring.cidx_lt hring.wb_lt hring.pidx_lt hring.wb_le
      have h3 := h.rung
      refine ⟨⟨hok.1, hok.2.trans ?_⟩, trivial⟩
      show _ ≤ dist r.q.conf.rngsz r.q.desc.wbCidx r.q.pidx
      omega
  | wb => exact ⟨trivial, trivial⟩
  | wait id => exact hok

/-- **The device carries out the next move.** -/
theorem RigInv.exec {r : Rig} (h : RigInv r) (hok : r.Ok .exec) :
    RigInv (r.step .exec) ∧
      Run (Line.step (Xfer.act r.q.conf)) Line.Ok r.view [.perform] (r.step .exec).view := by
  have hring := h.credit.ring
  have hreg := hring.rung
  have hne : ¬ r.exe = r.q.pidx := fun he => hok (he.trans hreg.symm)
  have hpos : 0 < dist r.q.conf.rngsz r.exe r.q.pidx := by
    have := dist_eq_zero h.exe_lt hring.pidx_lt
    omega
  have hsplit := dist_add_dist hring.cidx_lt h.exe_lt hring.pidx_lt h.rung
  have hlt : dist r.q.conf.rngsz r.q.cidx r.q.pidx < r.q.conf.rngsz := dist_lt (by
    have := hring.one_le
    omega)
  have hfrom : dist r.q.conf.rngsz r.q.cidx (adv r.q.conf.rngsz r.exe 1)
      = dist r.q.conf.rngsz r.q.cidx r.exe + 1 :=
    dist_adv_right hring.cidx_lt h.exe_lt (by omega)
  have hto : dist r.q.conf.rngsz (adv r.q.conf.rngsz r.exe 1) r.q.pidx
      = dist r.q.conf.rngsz r.exe r.q.pidx - 1 := dist_adv_left h.exe_lt hring.pidx_lt hpos
  have hrep := h.reported
  have hadv : adv r.q.conf.rngsz r.exe 1 < r.q.conf.rngsz := adv_lt (by omega)
  refine ⟨⟨h.count, h.nonempty, h.handed, hadv, ?_, ?_⟩, ?_⟩
  · exact (hrep.trans (Nat.le_succ _)).trans hfrom.ge
  · show dist r.q.conf.rngsz r.q.cidx (adv r.q.conf.rngsz r.exe 1)
      ≤ dist r.q.conf.rngsz r.q.cidx r.q.pidx
    omega
  -- the slot at the device's index is the next descriptor that was handed over
  have hcount := h.executed
  have hcons := congrArg List.length (consumed_append hring)
  rw [List.length_append, length_stretch] at hcons
  have hslot : r.q.regs.handed[r.executed]? = some (r.q.desc.slot r.exe) := by
    have hidx : r.executed - r.q.consumed.length = dist r.q.conf.rngsz r.q.cidx r.exe := by
      omega
    have hin : dist r.q.conf.rngsz r.q.cidx r.exe
        < (stretch r.q.conf.rngsz r.q.desc.slot r.q.cidx r.q.pidx).length := by
      rw [length_stretch]
      omega
    rw [← consumed_append hring, List.getElem?_append_right hcount.1, hidx,
      List.getElem?_eq_getElem hin, getElem_stretch, adv_dist hring.cidx_lt h.exe_lt]
  have hmove : (todo (r.jobs r.q.reqs))[r.executed - (todo (r.jobs r.q.doneCbs)).length]?
      = some ((r.q.desc.slot r.exe).move r.q.conf) := by
    obtain ⟨rest, hrest⟩ := h.prefix
    rw [← List.getElem?_append_right h.retired_le, ← hrest, List.getElem?_append_left,
      List.getElem?_map, hslot]
    · rfl
    · rw [List.length_map]
      omega
  have hview : (r.step .exec).view = Line.step (Xfer.act r.q.conf) r.view .perform := by
    have hexec : (r.step .exec).executed = r.executed + 1 := by
      show r.q.regs.handed.length
        - dist r.q.conf.rngsz (adv r.q.conf.rngsz r.exe 1) r.q.pidx = _
      omega
    have hle := h.retired_le
    unfold Rig.view
    rw [step_perform hmove, hexec]
    show (⟨_, skip (r.executed + 1 - (todo (r.jobs r.q.doneCbs)).length) _, _⟩ : Line _ _ _) = _
    rw [Nat.sub_add_comm hle]
    rfl
  rw [hview]
  refine Run.one ?_
  show todo (skip _ _) ≠ []
  rw [todo_skip]
  intro hnil
  rw [List.drop_eq_nil_iff] at hnil
  rw [List.getElem?_eq_none hnil] at hmove
  cases hmove

/-- **A submission** joins the line, or is refused. -/
theorem RigInv.submit {r : Rig} (h : RigInv r) {req : Request} {mapped : Bool}
    (hok : r.Ok (.drv (.submit req mapped))) :
    RigInv (r.step (.drv (.submit req mapped))) ∧
      Run (Line.step (Xfer.act r.q.conf)) Line.Ok r.view (r.acts (.drv (.submit req mapped)))
        (r.step (.drv (.submit req mapped))).view := by
  have hcount := countInv_step _ _ h.count (h.admitted hok)
  have hq : (r.step (.drv (.submit req mapped))).q
      = (qdmaRequestSubmit r.q r.sys.nreq req mapped).1 := submit_q _ _ _
  rcases requestSubmit_cases r.q r.sys.nreq req mapped with ⟨rv, heq⟩ | heq
  · rw [heq] at hq
    refine ⟨⟨hcount, ?_, ?_, ?_, ?_, ?_⟩, ?_⟩
    · rw [hq]
      exact h.nonempty
    · rw [hq]
      exact h.handed
    · rw [hq]
      exact h.exe_lt
    · rw [hq]
      exact h.reported
    · rw [hq]
      exact h.rung
    · rw [view_congr hq rfl rfl, Rig.acts, if_neg (by rw [heq]; exact Option.some_ne_none rv)]
      exact Run.nil
  · rw [heq] at hq
    have hhanded := h.handed
    unfold Handed at hhanded
    refine ⟨⟨hcount, ?_, ?_, ?_, ?_, ?_⟩, ?_⟩
    · rw [hq]
      intro cb hcb
      rcases List.mem_append.mp hcb with hcb | hcb
      · exact h.nonempty cb hcb
      · rw [List.mem_singleton.mp hcb]
        exact hok.2
    · rw [hq]
      have hnew : (r.q.workList ++ [req.newCb r.sys.nreq]).flatMap (SgtReqCb.begun r.q.conf.st)
          = r.q.workList.flatMap (SgtReqCb.begun r.q.conf.st) := by
        rw [List.flatMap_append, begun_nil (l := [req.newCb r.sys.nreq]), List.append_nil]
        intro cb hcb
        rw [List.mem_singleton.mp hcb]
        rfl
      show r.q.regs.handed.map (Desc.move r.q.conf)
        = (r.q.doneCbs ++ r.q.pendList).flatMap (fun cb : SgtReqCb => cb.req.moves r.q.conf.st)
          ++ (r.q.workList ++ [req.newCb r.sys.nreq]).flatMap (SgtReqCb.begun r.q.conf.st)
      rw [hnew]
      exact hhanded
    · rw [hq]
      exact h.exe_lt
    · rw [hq]
      exact h.reported
    · rw [hq]
      exact h.rung
    · rw [Rig.acts, if_pos (by rw [heq])]
      have hview : (r.step (.drv (.submit req mapped))).view
          = Line.step (Xfer.act r.q.conf) r.view (.join ⟨r.sys.nreq, req.moves r.q.conf.st⟩) := by
        have hle := h.executed_le
        unfold Rig.view Rig.executed Rig.jobs
        rw [hq, enqueue_reqs]
        show (⟨r.world, skip _ ((r.q.reqs ++ [_]).map (SgtReqCb.job r.q.conf.st)), _⟩
          : Line _ _ _) = _
        rw [List.map_append, skip_append_left]
        · rfl
        · show r.executed - (todo (r.jobs r.q.doneCbs)).length ≤ (todo (r.jobs r.q.reqs)).length
          omega
      rw [hview]
      exact Run.one trivial

/-- **A worker pass** is nothing to the line. -/
theorem RigInv.worker {r : Rig} (h : RigInv r) :
    RigInv (r.step (.drv .worker)) ∧ (r.step (.drv .worker)).view = r.view := by
  have hring := h.credit.ring
  have hcount := countInv_step _ _ h.count (h.admitted (l := .worker) trivial)
  obtain ⟨k, hk⟩ := wrkProc_extends hring
  have hp := passing_wrkProc h.credit h.fifo h.nonempty h.handed
  have hdist := hk.dist hring
  rw [hk.conf, hk.cidx] at hdist
  have hsplit := dist_add_dist hring.cidx_lt h.exe_lt hring.pidx_lt h.rung
  have havail := hring.avail
  have hrng := hring.one_le
  have hka := hk.avail
  have hrung := h.rung
  refine ⟨⟨hcount, hp.nonempty, hp.handed, ?_, ?_, ?_⟩, ?_⟩
  · show r.exe < (qdmaThreadWrkProc r.q).conf.rngsz
    rw [hk.conf]
    exact h.exe_lt
  · show dist (qdmaThreadWrkProc r.q).conf.rngsz (qdmaThreadWrkProc r.q).cidx
      (qdmaThreadWrkProc r.q).desc.wbCidx
      ≤ dist (qdmaThreadWrkProc r.q).conf.rngsz (qdmaThreadWrkProc r.q).cidx r.exe
    rw [hk.conf, hk.cidx, hk.wbCidx]
    exact h.reported
  · show dist (qdmaThreadWrkProc r.q).conf.rngsz (qdmaThreadWrkProc r.q).cidx r.exe
      ≤ dist (qdmaThreadWrkProc r.q).conf.rngsz (qdmaThreadWrkProc r.q).cidx
        (qdmaThreadWrkProc r.q).pidx
    rw [hk.conf, hk.cidx, hdist]
    omega
  · have hto : dist r.q.conf.rngsz r.exe (qdmaThreadWrkProc r.q).pidx
        = dist r.q.conf.rngsz r.exe r.q.pidx + k := by
      rw [hk.pidx]
      exact dist_adv_right h.exe_lt hring.pidx_lt (by omega)
    have hlen : (qdmaThreadWrkProc r.q).regs.handed.length = r.q.regs.handed.length + k := by
      rw [hk.handed, List.length_append, length_stretch, hk.pidx, dist_adv hring.pidx_lt (by omega)]
    have hexec : (r.step (.drv .worker)).executed = r.executed := by
      show (qdmaThreadWrkProc r.q).regs.handed.length - dist (qdmaThreadWrkProc r.q).conf.rngsz
        r.exe (qdmaThreadWrkProc r.q).pidx = _
      rw [hk.conf, hlen, hto]
      unfold Rig.executed
      omega
    have hdone : (r.step (.drv .worker)).q.doneCbs = r.q.doneCbs :=
      congrArg (List.map Done.cb) hp.finished
    have hconf : (r.step (.drv .worker)).q.conf = r.q.conf := hk.conf
    have hjobs : (r.step (.drv .worker)).q.reqs.map (SgtReqCb.job r.q.conf.st)
        = r.q.reqs.map (SgtReqCb.job r.q.conf.st) := hp.jobs
    unfold Rig.view Rig.jobs
    rw [hexec, hdone, hconf, hjobs]
    rfl

/-- A report is nothing to the line. -/
theorem RigInv.hw {r : Rig} (h : RigInv r) {c : ℕ} (hok : r.Ok (.drv (.hw c))) :
    RigInv (r.step (.drv (.hw c))) ∧ (r.step (.drv (.hw c))).view = r.view := by
  have hring := h.credit.ring
  have hcount := countInv_step _ _ h.count (h.admitted hok)
  refine ⟨⟨hcount, h.nonempty, h.handed, h.exe_lt, ?_, h.rung⟩, rfl⟩
  exact dist_le_dist hring.cidx_lt hring.wb_lt hok.1 h.exe_lt h.reported hok.2

/-- The requests a writeback completes leave the front of the lists; the others stay. -/
theorem settled_jobs (st : Bool) (q : Descq) :
    ∃ done : List SgtReqCb, q.settled.doneCbs.map (SgtReqCb.job st)
        = q.doneCbs.map (SgtReqCb.job st) ++ done.map (SgtReqCb.job st) ∧
      q.pendList.map (SgtReqCb.job st)
        = done.map (SgtReqCb.job st) ++ q.settled.pendList.map (SgtReqCb.job st) ∧
      q.settled.finished.length = q.finished.length + done.length := by
  obtain ⟨done, tail, hpend, hfin, hrest⟩ := settled_spec q
  refine ⟨done, ?_, ?_, ?_⟩
  · unfold Descq.doneCbs
    rw [hfin, List.map_append, List.map_append, List.map_map, List.map_map, List.map_map]
    rfl
  · rw [hpend, List.map_append]
    congr 1
    rcases hrest with ⟨h1, -⟩ | ⟨a, t, k, rfl, -, h3, -⟩
    · rw [h1]
    · rw [h3]
      rfl
  · rw [hfin, List.length_append, List.length_map]

/-- The moves of requests, read off their jobs. -/
theorem moves_of_jobs {st : Bool} {l l' : List SgtReqCb}
    (h : l.map (SgtReqCb.job st) = l'.map (SgtReqCb.job st)) :
    l.flatMap (fun cb => cb.req.moves st) = l'.flatMap (fun cb => cb.req.moves st) := by
  have htodo := congrArg todo h
  rw [todo, todo, List.flatMap_map, List.flatMap_map] at htodo
  exact htodo

/-- **A writeback** retires the requests it completes. -/
theorem RigInv.wb {r : Rig} (h : RigInv r) :
    RigInv (r.step (.drv .wb)) ∧
      Run (Line.step (Xfer.act r.q.conf)) Line.Ok r.view (r.acts (.drv .wb))
        (r.step (.drv .wb)).view := by
  have hring := h.credit.ring
  have hcount := countInv_step _ _ h.count (h.admitted (l := .wb) trivial)
  rcases h.credit.wb_eq h.count.noWrap with ⟨-, heq⟩ | ⟨-, heq⟩
  -- nothing new was reported
  · have hq : (r.step (.drv .wb)).q = r.q := heq
    refine ⟨⟨hcount, ?_, ?_, ?_, ?_, ?_⟩, ?_⟩
    · rw [hq]
      exact h.nonempty
    · rw [hq]
      exact h.handed
    · rw [hq]
      exact h.exe_lt
    · rw [hq]
      exact h.reported
    · rw [hq]
      exact h.rung
    · rw [view_congr hq rfl rfl, Rig.acts, heq, Nat.sub_self, List.replicate_zero]
      exact Run.nil
  · have hq : (r.step (.drv .wb)).q = r.q.settled := heq
    have h1 := dist_add_dist hring.cidx_lt hring.wb_lt h.exe_lt h.reported
    have h2 := dist_add_dist hring.cidx_lt hring.wb_lt hring.pidx_lt hring.wb_le
    have h3 := h.rung
    obtain ⟨done, hdone, hpend, hlen⟩ := settled_jobs r.q.conf.st r.q
    have hjobs : (r.q.settled.doneCbs ++ r.q.settled.pendList).map (SgtReqCb.job r.q.conf.st)
        = (r.q.doneCbs ++ r.q.pendList).map (SgtReqCb.job r.q.conf.st) := by
      rw [List.map_append, List.map_append, hdone, hpend, List.append_assoc]
    have hinv : RigInv (r.step (.drv .wb)) := by
      refine ⟨hcount, ?_, ?_, ?_, ?_, ?_⟩
      · rw [hq]
        exact h.nonempty
      · have hhanded := h.handed
        unfold Handed at hhanded ⊢
        rw [hq]
        show _ = (r.q.settled.doneCbs ++ r.q.settled.pendList).flatMap _ ++ _
        rw [← hq]
        rw [← moves_of_jobs hjobs] at hhanded
        rw [hq]
        exact hhanded
      · rw [hq]
        exact h.exe_lt
      · rw [hq]
        show dist r.q.conf.rngsz r.q.desc.wbCidx r.q.desc.wbCidx ≤ _
        rw [dist_self]
        exact Nat.zero_le _
      · rw [hq]
        show dist r.q.conf.rngsz r.q.desc.wbCidx r.exe
          ≤ dist r.q.conf.rngsz r.q.desc.wbCidx r.q.pidx
        omega
    refine ⟨hinv, ?_⟩
    have hle := hinv.retired_le
    have hexec : (r.step (.drv .wb)).executed = r.executed := by
      unfold Rig.executed
      rw [hq]
      rfl
    have hdoneTodo : todo ((r.step (.drv .wb)).jobs (r.step (.drv .wb)).q.doneCbs)
        = todo (r.jobs r.q.doneCbs) ++ todo (r.jobs done) := by
      unfold Rig.jobs
      rw [hq]
      show todo (r.q.settled.doneCbs.map (SgtReqCb.job r.q.conf.st)) = _
      rw [hdone, todo_append]
    rw [hexec, hdoneTodo, List.length_append] at hle
    have hreqs : r.jobs r.q.reqs = r.jobs done ++ r.jobs r.q.settled.reqs := by
      unfold Rig.jobs Descq.reqs
      rw [List.map_append, List.map_append, hpend, List.append_assoc]
      rfl
    have hkeys : ∀ l : List SgtReqCb, l.map SgtReqCb.id = (r.jobs l).map Job.key := by
      intro l
      rw [Rig.jobs, List.map_map]
      rfl
    have hacts : r.acts (.drv .wb) = List.replicate (r.jobs done).length Act.retire := by
      rw [Rig.acts, heq, hlen, Nat.add_sub_cancel_left, Rig.jobs, List.length_map]
    have hview : (r.step (.drv .wb)).view
        = ⟨r.world, skip (r.executed - (todo (r.jobs r.q.doneCbs)).length
            - (todo (r.jobs done)).length) (r.jobs r.q.settled.reqs),
          r.q.doneCbs.map SgtReqCb.id ++ (r.jobs done).map Job.key⟩ := by
      unfold Rig.view
      rw [hexec, hdoneTodo, List.length_append, Nat.sub_sub, hq, hkeys, hkeys]
      have hkeys' : (r.jobs r.q.settled.doneCbs).map Job.key
          = (r.jobs r.q.doneCbs).map Job.key ++ (r.jobs done).map Job.key := by
        unfold Rig.jobs
        rw [hdone, List.map_append]
      rw [hkeys']
      unfold Rig.jobs
      rw [hq]
      rfl
    rw [hview, hacts, Rig.view, hreqs]
    exact run_retire r.world (r.jobs done) (r.jobs r.q.settled.reqs) _ (by omega)

/-- The end of a wait is nothing to the line. -/
theorem RigInv.wait {r : Rig} (h : RigInv r) {id : ℕ} (hok : r.Ok (.drv (.wait id))) :
    RigInv (r.step (.drv (.wait id))) ∧ (r.step (.drv (.wait id))).view = r.view := by
  have hcount := countInv_step _ _ h.count (h.admitted hok)
  have hq : (r.step (.drv (.wait id))).q = r.q := by
    obtain ⟨cb, hcb⟩ := Option.isSome_iff_exists.mp hok.2
    show (r.sys.wait id).q = r.sys.q
    unfold Sys.wait qdmaRequestWaitForCmpl
    rw [show r.sys.q.doneCb id = some cb from hcb]
    rfl
  refine ⟨⟨hcount, ?_, ?_, ?_, ?_, ?_⟩, view_congr hq rfl rfl⟩
  · rw [hq]
    exact h.nonempty
  · rw [hq]
    exact h.handed
  · rw [hq]
    exact h.exe_lt
  · rw [hq]
    exact h.reported
  · rw [hq]
    exact h.rung

/-- **Every step of the system** is what it stands for on the line. -/
theorem RigInv.step {r : Rig} (h : RigInv r) {d : Deed} (hok : r.Ok d) :
    RigInv (r.step d) ∧
      Run (Line.step (Xfer.act r.q.conf)) Line.Ok r.view (r.acts d) (r.step d).view := by
  have hsame : ∀ {d : Deed}, r.acts d = [] → RigInv (r.step d) ∧ (r.step d).view = r.view →
      RigInv (r.step d) ∧
        Run (Line.step (Xfer.act r.q.conf)) Line.Ok r.view (r.acts d) (r.step d).view := by
    intro d hacts hd
    rw [hacts, hd.2]
    exact ⟨hd.1, Run.nil⟩
  cases d with
  | drv l =>
      cases l with
      | submit req mapped => exact h.submit hok
      | worker => exact hsame rfl h.worker
      | hw c => exact hsame rfl (h.hw hok)
      | wb => exact h.wb
      | wait id => exact hsame rfl (h.wait hok)
  | exec => exact h.exec hok
  | outside f =>
      exact ⟨⟨h.count, h.nonempty, h.handed, h.exe_lt, h.reported, h.rung⟩, Run.one trivial⟩

/-- The configuration stays. -/
theorem RigInv.conf {r : Rig} (h : RigInv r) (d : Deed) : (r.step d).q.conf = r.q.conf := by
  cases d with
  | drv l =>
      cases l with
      | submit req mapped =>
          have hq : (r.step (.drv (.submit req mapped))).q
              = (qdmaRequestSubmit r.q r.sys.nreq req mapped).1 := submit_q _ _ _
          rw [hq]
          exact (sameRing_submit _ _ _ _).conf
      | worker =>
          obtain ⟨k, hk⟩ := wrkProc_extends h.credit.ring
          exact hk.conf
      | hw c => rfl
      | wb =>
          have hq : (r.step (.drv .wb)).q = descqMmNH2cWb r.q := rfl
          rw [hq]
          rcases h.credit.wb_eq h.count.noWrap with ⟨-, heq⟩ | ⟨-, heq⟩
          · rw [heq]
          · rw [heq]
            rfl
      | wait id => exact (sameRing_wait r.q id).conf
  | exec => rfl
  | outside f => rfl

/-! ## Whole runs -/

/-- What a run of the system is on the line. -/
def Rig.trace (r : Rig) : List Deed → List (Act World ℕ Xfer)
  | [] => []
  | d :: ds => r.acts d ++ (r.step d).trace ds

theorem trace_append (r : Rig) (ds ds' : List Deed) :
    r.trace (ds ++ ds') = r.trace ds ++ (ds.foldl Rig.step r).trace ds' := by
  induction ds generalizing r with
  | nil => rfl
  | cons d ds ih => rw [List.cons_append, Rig.trace, Rig.trace, ih, List.append_assoc]; rfl

/-- **Runs of the system are runs of the line.** -/
theorem RigInv.run {r r' : Rig} (h : RigInv r) {ds : List Deed} (hrun : Run Rig.step Rig.Ok r ds r') :
    RigInv r' ∧ r'.q.conf = r.q.conf ∧
      Run (Line.step (Xfer.act r.q.conf)) Line.Ok r.view (r.trace ds) r'.view := by
  induction hrun with
  | nil => exact ⟨h, rfl, Run.nil⟩
  | @snoc ds s d hrun hok ih =>
      obtain ⟨hs, hconf, hview⟩ := ih
      obtain ⟨hs', hstep⟩ := hs.step hok
      refine ⟨hs', (hs.conf d).trans hconf, ?_⟩
      rw [trace_append, ← hrun.eq_foldl, Rig.trace, Rig.trace, List.append_nil]
      rw [hconf] at hstep
      exact hview.append hstep

/-- A queue just started, with nothing to do. -/
theorem Started.rigInv {q : Descq} (h : Started q) (w : World) :
    RigInv (q.rig w) ∧ (q.rig w).view = { world := w } := by
  obtain ⟨hring, hw, hp, hf, -, hh, hpidx, -⟩ := h.spec
  have hwb := hring.wb_le
  rw [← hpidx, dist_self] at hwb
  refine ⟨⟨h.countInv, ?_, ?_, hring.cidx_lt, ?_, ?_⟩, ?_⟩
  · show ∀ cb ∈ q.workList, _
    rw [hw]
    exact fun _ hcb => absurd hcb List.not_mem_nil
  · unfold Handed Descq.doneCbs
    show q.regs.handed.map _ = (q.finished.map _ ++ q.pendList).flatMap _ ++ q.workList.flatMap _
    rw [hh, hf, hp, hw]
    rfl
  · show dist q.conf.rngsz q.cidx q.desc.wbCidx ≤ _
    exact hwb.trans (Nat.zero_le _)
  · show dist q.conf.rngsz q.cidx q.cidx ≤ _
    rw [dist_self]
    exact Nat.zero_le _
  · unfold Rig.view Rig.jobs Descq.doneCbs Descq.reqs
    show (⟨w, skip _ ((q.pendList ++ q.workList).map _), (q.finished.map _).map _⟩ : Line _ _ _) = _
    rw [hf, hp, hw]
    rfl

/-! ## The jobs that join -/

/-- The jobs that joined were submitted under their names, in this order. -/
structure Joined (r : Rig) (js : List (Job ℕ Xfer)) : Prop where
  length : r.sys.submitted.length = r.sys.nreq
  keys : js.map Job.key = r.sys.queued
  ops : ∀ j ∈ js, ∃ req, r.sys.submitted[j.key]? = some req ∧ j.ops = req.moves r.q.conf.st

/-- What a submission writes down. -/
theorem submit_book (s : Sys) (req : Request) (mapped : Bool) :
    (s.submit req mapped).nreq = s.nreq + 1 ∧
      (s.submit req mapped).submitted = s.submitted ++ [req] ∧
      (s.submit req mapped).queued = s.queued
        ++ if (qdmaRequestSubmit s.q s.nreq req mapped).2 = none then [s.nreq] else [] := by
  unfold Sys.submit
  rcases requestSubmit_cases s.q s.nreq req mapped with ⟨rv, heq⟩ | heq
  · simp only [heq]
    exact ⟨rfl, rfl, (List.append_nil _).symm⟩
  · simp only [heq]
    split_ifs <;> exact ⟨rfl, rfl, rfl⟩

theorem Joined.step {r : Rig} {js : List (Job ℕ Xfer)} (hinv : RigInv r) (h : Joined r js)
    (d : Deed) : Joined (r.step d) (js ++ (r.acts d).filterMap Act.joins) := by
  have hconf := hinv.conf d
  have hsame : ∀ {acts : List (Act World ℕ Xfer)}, acts.filterMap Act.joins = [] →
      (r.step d).sys.submitted = r.sys.submitted → (r.step d).sys.nreq = r.sys.nreq →
      (r.step d).sys.queued = r.sys.queued →
      Joined (r.step d) (js ++ acts.filterMap Act.joins) := by
    intro acts h0 h1 h2 h3
    rw [h0, List.append_nil]
    refine ⟨by rw [h1, h2, h.length], by rw [h3, h.keys], ?_⟩
    rw [h1, hconf]
    exact h.ops
  cases d with
  | drv l =>
      cases l with
      | submit req mapped =>
          obtain ⟨hnreq, hsub, hqueued⟩ := submit_book r.sys req mapped
          have hold : ∀ j ∈ js, ∃ r', (r.sys.submitted ++ [req])[j.key]? = some r' ∧
              j.ops = r'.moves r.q.conf.st := by
            intro j hj
            obtain ⟨req', hget, hops⟩ := h.ops j hj
            obtain ⟨hlt, -⟩ := List.getElem?_eq_some_iff.mp hget
            exact ⟨req', by rw [List.getElem?_append_left hlt, hget], hops⟩
          refine ⟨?_, ?_, ?_⟩
          · show (r.sys.submit req mapped).submitted.length = (r.sys.submit req mapped).nreq
            rw [hsub, hnreq, List.length_append, h.length]
            rfl
          · show _ = (r.sys.submit req mapped).queued
            rw [hqueued, Rig.acts, List.map_append, h.keys]
            unfold Rig.q
            split_ifs <;> rfl
          · have hbook : (r.step (.drv (.submit req mapped))).sys.submitted
                = r.sys.submitted ++ [req] := hsub
            rw [hbook, hconf, Rig.acts]
            intro j hj
            rcases List.mem_append.mp hj with hj | hj
            · exact hold j hj
            · split_ifs at hj
              · rw [List.mem_singleton.mp hj]
                refine ⟨req, ?_, rfl⟩
                show (r.sys.submitted ++ [req])[r.sys.nreq]? = some req
                rw [← h.length, List.getElem?_concat_length]
              · cases hj
      | worker => exact hsame rfl rfl rfl rfl
      | hw c => exact hsame rfl rfl rfl rfl
      | wb =>
          refine hsame ?_ rfl rfl rfl
          rw [List.filterMap_eq_nil_iff]
          intro a ha
          rw [List.eq_of_mem_replicate ha]
          rfl
      | wait id => exact hsame rfl rfl rfl rfl
  | exec => exact hsame rfl rfl rfl rfl
  | outside f => exact hsame rfl rfl rfl rfl

/-- Memories in which every byte of the host is the lowest byte of its address. -/
def numbered : World := { host := fun a => UInt8.ofNat a, card := fun _ => 0 }

/-- One request carried out and handed back, then another that is carried out. -/
def oneAndNext : List Deed :=
  [.drv (.submit (writeReq 8) true), .drv .worker, .exec, .drv (.hw 1),
    .drv (.submit (writeReq 8) true), .drv .worker, .exec, .drv .wb]

end Qdma
