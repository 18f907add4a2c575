/-
# A request over its passes

A request function is called for the same request again and again, each time with the ring as it
then is, until the request moves to `pend_list` or fails.  `Passes` is what one request has come
to: its control block, the descriptors written for it so far, whether it has moved, and what the
last call returned.  A pass is labelled with the queue it is made on, so that a run is a list of
queues: whatever the other requests, the writebacks and the device did in between is part of it.
-/
import Qdma.AddrSpan
import Qdma.Exec
import Qdma.Serve

namespace Qdma

open RingIndex

/-! ## Passes -/

/-- A request between two passes. -/
structure Passes where
  cb : SgtReqCb
  out : List Desc := []
  moved : Bool := false
  rv : ℤ := 0

/-- The control block of `cb` as it is on the lists of `d`. -/
def Descq.block (d : Descq) (cb : SgtReqCb) : SgtReqCb :=
  (d.reqs.find? (fun c => c.id = cb.id)).getD cb

/-- One call of the request function `proc` on the queue `d`. -/
def Passes.step (proc : Descq → SgtReqCb → Descq × ℤ) (s : Passes) (d : Descq) : Passes :=
  let r := proc d s.cb
  { cb := r.1.block s.cb
    out := s.out ++ stretch d.conf.rngsz r.1.desc.slot d.pidx r.1.pidx
    moved := decide (s.cb.id ∈ r.1.pendList.map SgtReqCb.id)
    rv := r.2 }

/-- A ring in order: its indices lie on it, it is not full of free descriptors, and the doorbell
was rung for all that is posted. -/
structure RingFit (d : Descq) : Prop where
  pidx_lt : d.pidx < d.conf.rngsz
  avail_lt : d.avail < d.conf.rngsz
  rung : d.regs.pidx = d.pidx

/-- A queue the next pass can be made on: the request is on its `work_list` as the last pass left
it, blocks are distinct, and the ring is in order. -/
structure Passes.Ready (s : Passes) (d : Descq) : Prop extends RingFit d where
  going : s.moved = false ∧ 0 ≤ s.rv
  queued : s.cb ∈ d.workList
  nodup : (d.reqs.map SgtReqCb.id).Nodup

/-! ## What a pass comes to -/

theorem find?_none_of_notMem {id : ℕ} {l : List SgtReqCb} (h : id ∉ l.map SgtReqCb.id) :
    l.find? (fun c => c.id = id) = none := by
  rw [List.find?_eq_none]
  intro c hc he
  exact h (of_decide_eq_true he ▸ List.mem_map_of_mem hc)

theorem find?_updCb {cb cb' : SgtReqCb} {l : List SgtReqCb} (hid : cb'.id = cb.id)
    (h : cb ∈ l) : (updCb cb' l).find? (fun c => c.id = cb.id) = some cb' := by
  induction l with
  | nil => exact absurd h List.not_mem_nil
  | cons c l ih =>
      rw [updCb, List.map_cons]
      by_cases hc : c.id = cb'.id
      · rw [if_pos hc, List.find?_cons_of_pos (by exact decide_eq_true hid)]
      · rw [if_neg hc, List.find?_cons_of_neg (by simpa using fun he => hc (he.trans hid.symm))]
        rcases List.mem_cons.mp h with rfl | h
        · exact absurd hid.symm hc
        · exact ih h

/-- **A charged request**: its block is charged, and it is on `pend_list` exactly if its offset
has reached its count. -/
theorem chargeRequest_block {d : Descq} {cb : SgtReqCb} (n b : ℕ) (hmem : cb ∈ d.workList)
    (hnd : (d.reqs.map SgtReqCb.id).Nodup) :
    (chargeRequest d cb n b).block cb = cb.charge n b ∧
      (cb.id ∈ (chargeRequest d cb n b).pendList.map SgtReqCb.id ↔
        (cb.charge n b).offset = cb.req.count) := by
  have hpend : cb.id ∉ d.pendList.map SgtReqCb.id := by
    rw [Descq.reqs, List.map_append, List.nodup_append] at hnd
    exact fun h => hnd.2.2 _ h _ (List.mem_map_of_mem hmem) rfl
  have hpend' : cb.id ∉ (updCb (cb.charge n b) d.pendList).map SgtReqCb.id := by
    rw [updCb_ids]
    exact hpend
  have hfilter : cb.id ∉ ((updCb (cb.charge n b) d.pendList).filter
      (fun c => c.id ≠ (cb.charge n b).id)).map SgtReqCb.id := by
    intro h
    obtain ⟨c, hc, hid⟩ := List.mem_map.mp h
    exact of_decide_eq_true (List.mem_filter.mp hc).2 hid
  unfold chargeRequest Descq.block Descq.reqs
  simp only
  by_cases h : (cb.charge n b).offset = (cb.charge n b).req.count
  · rw [if_pos h]
    refine ⟨?_, iff_of_true ?_ h⟩
    · unfold reqSubmitted Descq.listDel Descq.setCb
      simp only
      rw [List.find?_append, List.find?_append, find?_none_of_notMem hfilter,
        List.find?_cons_of_pos (by exact decide_eq_true rfl)]
      rfl
    · unfold reqSubmitted
      simp only
      rw [List.map_append]
      exact List.mem_append_right _ (List.mem_singleton.mpr rfl)
  · rw [if_neg h]
    refine ⟨?_, iff_of_false hpend' h⟩
    unfold Descq.setCb
    simp only
    rw [List.find?_append, find?_none_of_notMem hpend',
      find?_updCb (show (cb.charge n b).id = cb.id from rfl) hmem]
    rfl

/-- A pass that posts the pieces `ps`. -/
theorem Passes.step_posted {proc : Descq → SgtReqCb → Descq × ℤ} {s : Passes} {d d' : Descq}
    {ps : List Piece} (h : s.Ready d)
    (hrun : proc d s.cb = (chargeRequest d' s.cb ps.length (bytes ps), 0))
    (hp : Posted d d' s.cb ps) :
    s.step proc d =
      { cb := s.cb.charge ps.length (bytes ps)
        out := s.out
          ++ stretch d.conf.rngsz d'.desc.slot d.pidx (adv d.conf.rngsz d.pidx ps.length)
        moved := decide ((s.cb.charge ps.length (bytes ps)).offset = s.cb.req.count)
        rv := 0 } := by
  have hwork : d'.workList = d.workList := by rw [hp.frame]; rfl
  have hreqs : d'.reqs = d.reqs := by rw [hp.frame]; rfl
  have hcharge := chargeRequest_block (d := d') ps.length (bytes ps) (hwork ▸ h.queued)
    (hreqs ▸ h.nodup)
  have hframe := chargeRequest_frame d' s.cb ps.length (bytes ps)
  unfold Passes.step
  simp only [hrun, hcharge.1, hcharge.2]
  have hdesc : (chargeRequest d' s.cb ps.length (bytes ps)).desc = d'.desc := hframe.desc
  have hpidx : (chargeRequest d' s.cb ps.length (bytes ps)).pidx = d'.pidx := hframe.pidx
  rw [hdesc, hpidx, hp.pidx]

/-- A pass that leaves the queue alone. -/
theorem Passes.step_same {proc : Descq → SgtReqCb → Descq × ℤ} {s : Passes} {d : Descq} {rv : ℤ}
    (h : s.Ready d) (hrun : proc d s.cb = (d, rv)) : s.step proc d = { s with rv := rv } := by
  have hnd := h.nodup
  have hpend : s.cb.id ∉ d.pendList.map SgtReqCb.id := by
    rw [Descq.reqs, List.map_append, List.nodup_append] at hnd
    exact fun hmem => hnd.2.2 _ hmem _ (List.mem_map_of_mem h.queued) rfl
  have hblock : d.block s.cb = s.cb := by
    have hself := find?_updCb (show s.cb.id = s.cb.id from rfl) h.queued
    have hsame : updCb s.cb d.workList = d.workList := by
      unfold updCb
      conv_rhs => rw [← List.map_id d.workList]
      apply List.map_congr_left
      intro c hc
      split_ifs with hid
      · rw [Descq.reqs, List.map_append, List.nodup_append] at hnd
        exact List.inj_on_of_nodup_map hnd.2.1 h.queued hc hid.symm
      · rfl
    rw [Descq.block, Descq.reqs, List.find?_append, find?_none_of_notMem hpend, ← hsame, hself]
    rfl
  unfold Passes.step
  simp only [hrun, hblock, stretch_self, List.append_nil]
  rw [decide_eq_false hpend, ← h.going.1]

end Qdma
