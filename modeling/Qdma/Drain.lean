/-
# Completing requests, and stopping

No request is completed twice, in any run of a queue of any kind, stops and restarts
included: the identities on the two lists, among the parked callers and among the completed
requests never repeat (`IdsInv`).

What `qdma_queue_stop` does not do is complete the requests it finds on the lists:
`stop_drains_iff`.
-/
import Qdma.Restart

namespace Qdma

open Exec

/-! ## Where a request is -/

/-- How often `i` is on one of the lists. -/
def Descq.listed (d : Descq) (i : ℕ) : ℕ :=
  (d.workList.map SgtReqCb.id).count i + (d.pendList.map SgtReqCb.id).count i

/-- How often `i` has been completed. -/
def Descq.completed (d : Descq) (i : ℕ) : ℕ := (d.finished.map (fun f => f.cb.id)).count i

/-- How often `i` is seen on a queue. -/
def Descq.seen (d : Descq) (i : ℕ) : ℕ := d.listed i + d.completed i

theorem count_listDel (l : List SgtReqCb) (id i : ℕ) :
    ((l.filter (fun c => c.id ≠ id)).map SgtReqCb.id).count i
      = if i = id then 0 else (l.map SgtReqCb.id).count i := by
  have hmap : (l.filter (fun c => c.id ≠ id)).map SgtReqCb.id
      = (l.map SgtReqCb.id).filter (fun j => j ≠ id) := by
    rw [List.filter_map]
    rfl
  rw [hmap]
  split_ifs with h
  · rw [h]
    exact List.count_eq_zero.mpr (fun hin => by simp at hin)
  · exact List.count_filter (by simpa using h)

theorem listed_listDel (d : Descq) (id i : ℕ) :
    (d.listDel id).listed i = if i = id then 0 else d.listed i := by
  unfold Descq.listed Descq.listDel
  simp only [count_listDel]
  split_ifs <;> rfl

theorem listed_setCb (d : Descq) (cb : SgtReqCb) (i : ℕ) :
    (d.setCb cb).listed i = d.listed i := by
  unfold Descq.listed Descq.setCb
  rw [updCb_ids, updCb_ids]

/-! ## What one call does to the lists -/

/-- No request moves. -/
structure SameSeen (d d' : Descq) : Prop where
  listed : ∀ i, d'.listed i = d.listed i
  finished : d'.finished = d.finished

theorem SameSeen.completed {d d' : Descq} (h : SameSeen d d') (i : ℕ) :
    d'.completed i = d.completed i := by
  unfold Descq.completed
  rw [h.finished]

theorem SameSeen.seen {d d' : Descq} (h : SameSeen d d') (i : ℕ) : d'.seen i = d.seen i := by
  unfold Descq.seen
  rw [h.listed, h.completed]

theorem SameSeen.of_reqPart {d d' : Descq} (h : d'.reqPart = d.reqPart) : SameSeen d d' := by
  obtain ⟨hw, hp⟩ := Prod.mk.inj h
  obtain ⟨hp, hf⟩ := Prod.mk.inj hp
  refine ⟨fun i => ?_, hf⟩
  unfold Descq.listed
  rw [hw, hp]

theorem sameSeen_setCb (d : Descq) (cb : SgtReqCb) : SameSeen d (d.setCb cb) :=
  ⟨listed_setCb d cb, rfl⟩

/-- No request is seen more often than before, and what is newly completed is done. -/
structure FewerSeen (d d' : Descq) : Prop where
  seen : ∀ i, d'.seen i ≤ d.seen i
  done : ∀ f ∈ d'.finished, f ∈ d.finished ∨ f.cb.done = true

theorem FewerSeen.refl (d : Descq) : FewerSeen d d := ⟨fun _ => le_rfl, fun _ => .inl⟩

theorem FewerSeen.trans {a b c : Descq} (h : FewerSeen a b) (h' : FewerSeen b c) : FewerSeen a c := by
  refine ⟨fun i => (h'.seen i).trans (h.seen i), fun f hf => ?_⟩
  rcases h'.done f hf with hf | hf
  · exact h.done f hf
  · exact .inr hf

theorem SameSeen.fewerSeen {d d' : Descq} (h : SameSeen d d') : FewerSeen d d' :=
  ⟨fun i => (h.seen i).le, fun _ hf => .inl (h.finished ▸ hf)⟩

/-- A call that serves the request `id`: the others stay where they are. -/
structure ServesOne (d d' : Descq) (id : ℕ) : Prop where
  other : ∀ i ≠ id, d'.listed i = d.listed i ∧ d'.completed i = d.completed i
  own : 0 < d.listed id → d'.seen id ≤ d.seen id
  done : ∀ f ∈ d'.finished, f ∈ d.finished ∨ f.cb.done = true

theorem SameSeen.servesOne {d d' : Descq} (h : SameSeen d d') (id : ℕ) : ServesOne d d' id :=
  ⟨fun i _ => ⟨h.listed i, h.completed i⟩, fun _ => (h.seen id).le, h.fewerSeen.done⟩

theorem ServesOne.congr_left {d d₁ d' : Descq} {id : ℕ} (h : ServesOne d₁ d' id)
    (hs : SameSeen d d₁) : ServesOne d d' id := by
  refine ⟨fun i hi => ?_, fun hpos => ?_, fun f hf => ?_⟩
  · rw [← hs.listed i, ← hs.completed i]
    exact h.other i hi
  · rw [← hs.seen id]
    exact h.own (by rwa [hs.listed id])
  · rw [← hs.finished]
    exact h.done f hf

theorem ServesOne.congr_right {d d₁ d' : Descq} {id : ℕ} (h : ServesOne d d₁ id)
    (hs : SameSeen d₁ d') : ServesOne d d' id := by
  refine ⟨fun i hi => ?_, fun hpos => ?_, fun f hf => ?_⟩
  · rw [hs.listed i, hs.completed i]
    exact h.other i hi
  · rw [hs.seen id]
    exact h.own hpos
  · rw [hs.finished] at hf
    exact h.done f hf

/-- Completing a request. -/
theorem servesOne_done (d : Descq) (cb : SgtReqCb) (error : ℤ) :
    ServesOne d (qdmaSgtReqDone d cb error) cb.id := by
  have hl : ∀ i, (qdmaSgtReqDone d cb error).listed i = if i = cb.id then 0 else d.listed i :=
    fun i => listed_listDel d cb.id i
  have hc : ∀ i, (qdmaSgtReqDone d cb error).completed i
      = d.completed i + if cb.id = i then 1 else 0 := by
    intro i
    show ((d.finished ++ [_]).map _).count i = _
    rw [List.map_append, List.count_append, List.map_singleton, List.count_singleton]
    unfold Descq.completed
    simp [SgtReqCb.finish]
  refine ⟨fun i hi => ⟨?_, ?_⟩, fun hpos => ?_, fun f hf => ?_⟩
  · rw [hl, if_neg hi]
  · rw [hc, if_neg (Ne.symm hi), Nat.add_zero]
  · unfold Descq.seen
    rw [hl, hc, if_pos rfl, if_pos rfl]
    omega
  · rcases List.mem_append.mp hf with hf | hf
    · exact .inl hf
    · rw [List.mem_singleton.mp hf]
      exact .inr rfl

/-- Moving a request to `pend_list`. -/
theorem servesOne_submitted (d : Descq) (cb : SgtReqCb) :
    ServesOne d (reqSubmitted d cb) cb.id := by
  have hl : ∀ i, (reqSubmitted d cb).listed i
      = (if i = cb.id then 0 else d.listed i) + if cb.id = i then 1 else 0 := by
    intro i
    rw [← listed_listDel d cb.id i]
    show _ + (((d.listDel cb.id).pendList ++ [cb]).map SgtReqCb.id).count i = _
    rw [List.map_append, List.count_append, List.map_singleton, List.count_singleton]
    unfold Descq.listed
    rw [← Nat.add_assoc]
    simp [reqSubmitted]
  refine ⟨fun i hi => ⟨?_, rfl⟩, fun hpos => ?_, fun f => .inl⟩
  · rw [hl, if_neg hi, if_neg (Ne.symm hi), Nat.add_zero]
  · show (reqSubmitted d cb).listed cb.id + d.completed cb.id ≤ d.listed cb.id + d.completed cb.id
    rw [hl, if_pos rfl, if_pos rfl]
    omega

/-! ## Serving a list of requests -/

/-- The requests a loop has yet to look at: different ones, and each on a list. -/
structure ToServe (d : Descq) (cbs : List SgtReqCb) : Prop where
  nodup : (cbs.map SgtReqCb.id).Nodup
  listed : ∀ c ∈ cbs, 0 < d.listed c.id

theorem ToServe.congr {d d' : Descq} {cbs : List SgtReqCb} (h : ToServe d cbs)
    (hs : SameSeen d d') : ToServe d' cbs :=
  ⟨h.nodup, fun c hc => by rw [hs.listed]; exact h.listed c hc⟩

/-- After one request of a list is served the others are still on it. -/
theorem ToServe.next {d d' : Descq} {cb : SgtReqCb} {cbs : List SgtReqCb}
    (hto : ToServe d (cb :: cbs)) (h : ServesOne d d' cb.id) : ToServe d' cbs ∧ FewerSeen d d' := by
  have hnd := List.nodup_cons.mp (show (cb.id :: cbs.map SgtReqCb.id).Nodup from hto.nodup)
  refine ⟨⟨hnd.2, fun c hc => ?_⟩, fun i => ?_, h.done⟩
  · have hne : c.id ≠ cb.id := fun heq => hnd.1 (heq ▸ List.mem_map_of_mem hc)
    rw [(h.other c.id hne).1]
    exact hto.listed c (List.mem_cons_of_mem _ hc)
  · by_cases hi : i = cb.id
    · rw [hi]
      exact h.own (hto.listed cb List.mem_cons_self)
    · unfold Descq.seen
      rw [(h.other i hi).1, (h.other i hi).2]

theorem servesOne_charge (d : Descq) (cb : SgtReqCb) (n b : ℕ) :
    ServesOne d (chargeRequest d cb n b) cb.id := by
  have hset : SameSeen d (({ d with avail := d.avail - n } : Descq).setCb (cb.charge n b)) :=
    ⟨listed_setCb _ _, rfl⟩
  unfold chargeRequest
  simp only
  split_ifs
  · exact (servesOne_submitted _ (cb.charge n b)).congr_left hset
  · exact hset.servesOne cb.id

/-- **Frame.**  Filling descriptors for a request serves it; a failure leaves the lists as
they are. -/
theorem servesOne_mmProc (d : Descq) (cb : SgtReqCb) :
    ServesOne d (descqMmProcRequest d cb).1 cb.id ∧
      ((descqMmProcRequest d cb).2 < 0 → SameSeen d (descqMmProcRequest d cb).1) := by
  have hsame : ∀ {d' : Descq} {rv : ℤ}, SameSeen d d' →
      ServesOne d d' cb.id ∧ (rv < 0 → SameSeen d d') :=
    fun h => ⟨h.servesOne cb.id, fun _ => h⟩
  unfold descqMmProcRequest
  simp only
  split_ifs
  · exact hsame (.of_reqPart rfl)
  · cases resumeAt cb with
    | none => exact hsame (.of_reqPart rfl)
    | some p =>
        simp only
        have hfill := reqPart_fillFrame.mmFillSgl cb.id d.avail (cb.req.sgl.drop p.1) p.2
          { d := d, epAddr := u64 (cb.req.epAddr + cb.offset) }
        generalize mmFillSgl cb.id d.avail (cb.req.sgl.drop p.1) p.2
          { d := d, epAddr := u64 (cb.req.epAddr + cb.offset) } = f at hfill
        cases f.descEnd with
        | none => exact hsame (.of_reqPart hfill)
        | some descEnd =>
            have hcharge := servesOne_charge ((f.d.mmSetFlag descEnd sDescFEop).mmSetFlag d.pidx
              sDescFSop) cb f.descCnt f.dataCnt
            refine ⟨(hcharge.congr_left (.of_reqPart hfill)).congr_right ?_,
              fun h => absurd h (lt_irrefl 0)⟩
            simp only
            split_ifs <;> exact .of_reqPart rfl

theorem servesOne_stProc (d : Descq) (cb : SgtReqCb) :
    ServesOne d (descqProcStH2cRequest d cb).1 cb.id ∧
      ((descqProcStH2cRequest d cb).2 < 0 → SameSeen d (descqProcStH2cRequest d cb).1) := by
  have hsame : ∀ {d' : Descq} {rv : ℤ}, SameSeen d d' →
      ServesOne d d' cb.id ∧ (rv < 0 → SameSeen d d') :=
    fun h => ⟨h.servesOne cb.id, fun _ => h⟩
  unfold descqProcStH2cRequest
  simp only
  by_cases h0 : d.avail = 0
  · rw [if_pos h0]
    exact hsame (.of_reqPart rfl)
  · rw [if_neg h0]
    cases resumeAt cb with
    | none => exact hsame (.of_reqPart rfl)
    | some p =>
        refine ⟨(servesOne_charge _ cb _ _).congr_left (.of_reqPart ?_),
          fun h => absurd h (lt_irrefl 0)⟩
        refine (reqPart_fillFrame.stFillSgl ..).trans ?_
        split_ifs <;> rfl

/-- **Step lemma** of the worker pass. -/
theorem servesOne_proc (d : Descq) (cb : SgtReqCb) :
    ServesOne d (let p := qdmaDescqProcSgtRequest d cb
      if p.2 < 0 then qdmaSgtReqDone p.1 cb p.2 else p.1) cb.id := by
  have hproc : ServesOne d (qdmaDescqProcSgtRequest d cb).1 cb.id ∧
      ((qdmaDescqProcSgtRequest d cb).2 < 0 → SameSeen d (qdmaDescqProcSgtRequest d cb).1) := by
    unfold qdmaDescqProcSgtRequest
    split_ifs
    · exact servesOne_mmProc d cb
    · exact servesOne_stProc d cb
    · exact ⟨(SameSeen.of_reqPart rfl).servesOne cb.id, fun _ => .of_reqPart rfl⟩
  simp only
  split_ifs with hrv
  · exact (servesOne_done _ cb _).congr_left (hproc.2 hrv)
  · exact hproc.1

theorem fewerSeen_wrkProcLoop (cbs : List SgtReqCb) (d : Descq) (hto : ToServe d cbs) :
    FewerSeen d (wrkProcLoop cbs d) := by
  induction cbs generalizing d with
  | nil => exact FewerSeen.refl d
  | cons cb cbs ih =>
      obtain ⟨hto', hfewer⟩ := hto.next (servesOne_proc d cb)
      rw [wrkProcLoop]
      simp only at hto' hfewer ⊢
      split_ifs at hto' hfewer ⊢
      all_goals first | exact hfewer | exact hfewer.trans (ih _ hto')

theorem fewerSeen_reqUpdatePendLoop (cbs : List SgtReqCb) (credit : ℕ) (d : Descq)
    (hto : ToServe d cbs) : FewerSeen d (reqUpdatePendLoop cbs credit d).1 := by
  induction cbs generalizing credit d with
  | nil => exact FewerSeen.refl d
  | cons cb cbs ih =>
      rw [reqUpdatePendLoop]
      by_cases hc : credit ≥ cb.descNr
      · obtain ⟨hto', hfewer⟩ := hto.next (servesOne_done d cb 0)
        simp only [hc, if_true]
        split_ifs
        · exact hfewer
        · exact hfewer.trans (ih _ _ hto')
      · simp only [hc, if_false, if_true]
        exact (sameSeen_setCb d { cb with descNr := cb.descNr - credit }).fewerSeen

theorem fewerSeen_packetsProc (cbs : List SgtReqCb) (d : Descq) (hto : ToServe d cbs) :
    FewerSeen d (packetsProcDflt cbs d) := by
  induction cbs generalizing d with
  | nil => exact FewerSeen.refl d
  | cons cb cbs ih =>
      rw [packetsProcDflt]
      by_cases h0 : cb.left = 0
      · rw [if_pos h0]
        exact (hto.next (servesOne_done d cb 0)).2
      · rw [if_neg h0]
        have hread := SameSeen.of_reqPart (reqPart_rxFrame.read d cb false false)
        -- a read that fails leaves the block, and so its room, as it was
        have hneg : (descqStC2hRead d cb false false).2.2 < 0 →
            (descqStC2hRead d cb false false).2.1 = cb := by
          unfold descqStC2hRead
          simp only
          split_ifs
          · exact fun _ => rfl
          · exact fun _ => rfl
          · exact fun h => absurd h (not_lt.mpr (Int.natCast_nonneg _))
        have hid : (descqStC2hRead d cb false false).2.1.id = cb.id := by
          unfold descqStC2hRead
          simp only
          split_ifs <;> rfl
        generalize descqStC2hRead d cb false false = p at hread hneg hid
        obtain ⟨d1, cb', rv⟩ := p
        have hset : SameSeen d (d1.setCb cb') :=
          ⟨fun i => (listed_setCb d1 cb' i).trans (hread.listed i), hread.finished⟩
        have hdone : ∀ e, ServesOne d (qdmaSgtReqDone (d1.setCb cb') cb' e) cb.id := by
          intro e
          rw [← hid]
          exact (servesOne_done _ cb' e).congr_left hset
        simp only at hneg ⊢
        by_cases hrv : rv < 0
        · rw [if_pos hrv, if_neg (by rw [hneg hrv]; exact h0)]
          exact (hto.next (hdone rv)).2
        · rw [if_neg hrv]
          split_ifs
          · obtain ⟨hto', hfewer⟩ := hto.next (hdone 0)
            exact hfewer.trans (ih _ hto')
          · exact hset.fewerSeen

/-! ## The life of the queue -/

theorem reqPart_frame : RingFrame Descq.reqPart :=
  ⟨fun _ _ _ _ _ => rfl, fun _ _ => rfl, fun _ _ => rfl⟩

theorem reqPart_start (d : Descq) (env : StartEnv) : (descqStart d env).1.reqPart = d.reqPart := by
  have hprog : ∀ d ctx, (qdmaDescqProgHw d ctx).1.reqPart = d.reqPart := by
    intro d ctx
    cases ctx with
    | ok =>
        unfold qdmaDescqProgHw
        simp only
        split_ifs <;> rfl
    | fail valid => rfl
  have hup : ∀ d, (descqBringUp d env).1.reqPart = d.reqPart := by
    intro d
    have halloc : _ = d.reqPart := reqPart_frame.alloc (fun _ _ => rfl) d.markInited env.alloc env.irq
    unfold descqBringUp
    simp only
    split_ifs
    · exact (reqPart_frame.free _).trans halloc
    · exact (reqPart_frame.free _).trans ((hprog _ _).trans halloc)
    · exact (hprog _ _).trans halloc
  unfold descqStart
  cases env.csr with
  | none => exact reqPart_frame.free d
  | some csr =>
      have hconf : (qdmaDescqConfigComplete d csr).reqPart = d.reqPart := by
        unfold qdmaDescqConfigComplete
        simp only
        split_ifs <;> rfl
      simp only
      split_ifs
      · exact hconf
      · exact (hup _).trans hconf

theorem reqPart_stop (d : Descq) (ctxCleared : Bool) :
    (descqStop d ctxCleared).reqPart = d.reqPart :=
  reqPart_frame.free (qdmaDescqContextClear { d with wrkthp := none, wbthp := none } ctxCleared)

theorem reqPart_reconfig (d : Descq) (qconf : QueueConf) (numVecs : ℕ) :
    (descqReconfig d qconf numVecs).1.reqPart = d.reqPart := by
  unfold descqReconfig
  split_ifs <;> rfl

/-! ## Runs -/

/-- A wait ends for a caller that is asleep. -/
def QLabel.Ok (s : QSys) : QLabel → Prop
  | .wait id => id ∈ s.waiters
  | _ => True

/-- Every request is in at most one place: on a list, between two locked sections, or among
the completed ones, which are done. -/
structure IdsInv (s : QSys) : Prop where
  once : ∀ i, s.q.seen i + (s.parked.map SgtReqCb.id).count i ≤ 1
  fresh : ∀ i ≥ s.nreq, s.q.seen i + (s.parked.map SgtReqCb.id).count i = 0
  done : ∀ f ∈ s.q.finished, f.cb.done = true

/-- **Step lemma** of the steps that bring in no request. -/
theorem IdsInv.fewer {s s' : QSys} (h : IdsInv s) (hq : FewerSeen s.q s'.q)
    (hparked : s'.parked = s.parked) (hnreq : s.nreq ≤ s'.nreq) : IdsInv s' := by
  refine ⟨fun i => ?_, fun i hi => ?_, fun f hf => ?_⟩
  · have h1 := h.once i
    have h2 := hq.seen i
    rw [hparked]
    omega
  · have h1 := h.fresh i (hnreq.trans hi)
    have h2 := hq.seen i
    rw [hparked]
    omega
  · rcases hq.done f hf with hf | hf
    · exact h.done f hf
    · exact hf

/-- **Step lemma** of the steps that bring in the request `nreq`. -/
theorem IdsInv.add {s s' : QSys} (h : IdsInv s) (hfin : s'.q.finished = s.q.finished)
    (hseen : ∀ i, s'.q.seen i + (s'.parked.map SgtReqCb.id).count i
      = s.q.seen i + (s.parked.map SgtReqCb.id).count i + if s.nreq = i then 1 else 0)
    (hnreq : s'.nreq = s.nreq + 1) : IdsInv s' := by
  refine ⟨fun i => ?_, fun i hi => ?_, fun f hf => h.done f (hfin ▸ hf)⟩
  · rw [hseen]
    split_ifs with hi
    · rw [h.fresh i hi.le]
    · exact h.once i
  · rw [hseen, h.fresh i (by omega), if_neg (by omega)]

theorem IdsInv.sleep {s : QSys} (h : IdsInv s) (id : ℕ) (req : Request) :
    IdsInv (s.sleep id req) := by
  unfold QSys.sleep
  split_ifs
  · exact h
  · exact ⟨h.once, h.fresh, h.done⟩

theorem listed_enqueue (d : Descq) (cb : SgtReqCb) (i : ℕ) :
    (d.enqueue cb).listed i = d.listed i + if cb.id = i then 1 else 0 := by
  show ((d.workList ++ [cb]).map SgtReqCb.id).count i + _ = _
  rw [List.map_append, List.count_append, List.map_singleton, List.count_singleton]
  unfold Descq.listed Descq.enqueue
  simp only [beq_iff_eq]
  omega

theorem IdsInv.submit {s : QSys} (h : IdsInv s) (req : Request) (mapped : Bool) :
    IdsInv (s.submit req mapped) := by
  have hskip : ∀ q : Descq, SameSeen s.q q → IdsInv { s with q := q, nreq := s.nreq + 1 } :=
    fun q hq => h.fewer hq.fewerSeen rfl (Nat.le_succ _)
  unfold QSys.submit
  simp only
  split_ifs
  · exact hskip _ (.of_reqPart rfl)
  · exact hskip _ (.of_reqPart (reqPart_rxFrame.read _ _ _ _))
  · -- the caller is between its two locked sections
    have hread := SameSeen.of_reqPart (reqPart_rxFrame.read s.q (req.newC2hCb s.nreq) true true)
    have hid : (submitStC2hRead s.q s.nreq req).2.id = s.nreq := by
      unfold submitStC2hRead descqStC2hRead
      simp only
      split_ifs <;> rfl
    refine h.add hread.finished (fun i => ?_) rfl
    show (submitStC2hRead s.q s.nreq req).1.seen i
      + ((s.parked ++ [(submitStC2hRead s.q s.nreq req).2]).map SgtReqCb.id).count i = _
    rw [show (submitStC2hRead s.q s.nreq req).1.seen i = s.q.seen i from hread.seen i,
      List.map_append, List.count_append, List.map_singleton, hid, List.count_singleton]
    simp only [beq_iff_eq]
    omega
  · unfold qdmaRequestSubmit
    split_ifs
    · exact hskip _ (.of_reqPart rfl)
    · exact hskip _ (.of_reqPart rfl)
    · exact hskip _ (.of_reqPart rfl)
    · apply IdsInv.sleep
      refine h.add rfl (fun i => ?_) rfl
      show (s.q.enqueue (req.newCb s.nreq)).listed i + s.q.completed i
          + (s.parked.map SgtReqCb.id).count i = s.q.listed i + s.q.completed i
            + (s.parked.map SgtReqCb.id).count i + _
      rw [listed_enqueue]
      show s.q.listed i + (if s.nreq = i then 1 else 0) + _ + _ = _
      omega

theorem IdsInv.pend {s : QSys} (h : IdsInv s) {cb : SgtReqCb} (hin : cb ∈ s.parked) :
    IdsInv (s.pend cb) := by
  have hpark : ∀ i, ((s.parked.filter (fun c => c.id ≠ cb.id)).map SgtReqCb.id).count i
      = if i = cb.id then 0 else (s.parked.map SgtReqCb.id).count i :=
    count_listDel s.parked cb.id
  -- the id moves from the parked requests to the pending list, or it is dropped
  have hpos : 0 < (s.parked.map SgtReqCb.id).count cb.id :=
    List.count_pos_iff.mpr (List.mem_map_of_mem hin)
  have hdrop : ∀ (q : Descq), q.finished = s.q.finished →
      (∀ i, q.seen i = s.q.seen i ∨ i = cb.id ∧ q.seen i = s.q.seen i + 1) →
      IdsInv { s with q := q, parked := s.parked.filter (fun c => c.id ≠ cb.id) } := by
    intro q hfin hq
    refine ⟨fun i => ?_, fun i hi => ?_, fun f hf => h.done f (hfin ▸ hf)⟩
    all_goals
      have hnew := hq i
      have honce := h.once i
      rw [show ({ s with q := q, parked := s.parked.filter (fun c => c.id ≠ cb.id) } : QSys).q
        = q from rfl, hpark]
    · split_ifs with hi
      · rw [← hi] at hpos
        omega
      · omega
    · have hfresh := h.fresh i hi
      split_ifs with hi
      · rw [← hi] at hpos
        omega
      · omega
  unfold QSys.pend submitStC2hPend
  cases s.q.online with
  | true =>
      simp only [if_true]
      apply IdsInv.sleep
      refine hdrop _ rfl (fun i => ?_)
      have hl : Descq.listed { s.q with pendList := s.q.pendList ++ [cb] } i
          = s.q.listed i + if cb.id = i then 1 else 0 := by
        unfold Descq.listed
        simp only
        rw [List.map_append, List.count_append, List.map_singleton, List.count_singleton]
        simp only [beq_iff_eq]
        omega
      show Descq.listed { s.q with pendList := s.q.pendList ++ [cb] } i + s.q.completed i
          = s.q.seen i ∨ i = cb.id ∧
        Descq.listed { s.q with pendList := s.q.pendList ++ [cb] } i + s.q.completed i
          = s.q.seen i + 1
      rw [hl]
      unfold Descq.seen
      split_ifs with hi
      · exact .inr ⟨hi.symm, by omega⟩
      · exact .inl rfl
  | false => exact hdrop _ rfl (fun _ => .inl rfl)

/-- The loops start from lists without repetitions. -/
theorem IdsInv.toServe {s : QSys} (h : IdsInv s) :
    ToServe s.q s.q.workList ∧ ToServe s.q s.q.pendList := by
  have hle : ∀ i, s.q.listed i ≤ 1 := by
    intro i
    have honce := h.once i
    unfold Descq.seen at honce
    omega
  have hpos : ∀ l : List SgtReqCb, ∀ c ∈ l, 0 < (l.map SgtReqCb.id).count c.id :=
    fun l c hc => List.count_pos_iff.mpr (List.mem_map_of_mem hc)
  refine ⟨⟨List.nodup_iff_count_le_one.mpr (fun i => ?_), fun c hc => ?_⟩,
    ⟨List.nodup_iff_count_le_one.mpr (fun i => ?_), fun c hc => ?_⟩⟩
  · have h1 := hle i
    unfold Descq.listed at h1
    omega
  · have h1 := hpos _ c hc
    unfold Descq.listed
    omega
  · have h1 := hle i
    unfold Descq.listed at h1
    omega
  · have h1 := hpos _ c hc
    unfold Descq.listed
    omega

theorem fewerSeen_wb (d : Descq) (hto : ToServe d d.pendList) : FewerSeen d (descqMmNH2cWb d) := by
  unfold descqMmNH2cWb
  split_ifs with h1
  · exact FewerSeen.refl d
  · simp only
    split_ifs with h2 h3
    · exact FewerSeen.refl d
    all_goals
      have hcr : SameSeen d (descqWbCredit d d.desc.wbCidx).1 := by
        unfold descqWbCredit
        split_ifs <;> exact .of_reqPart rfl
      have hpend : (descqWbCredit d d.desc.wbCidx).1.pendList = d.pendList := by
        unfold descqWbCredit
        split_ifs <;> rfl
      have hloop := fewerSeen_reqUpdatePendLoop (descqWbCredit d d.desc.wbCidx).1.pendList
        (u32 ((descqWbCredit d d.desc.wbCidx).2 + (descqWbCredit d d.desc.wbCidx).1.credit))
        (descqWbCredit d d.desc.wbCidx).1 (by rw [hpend]; exact hto.congr hcr)
      refine hcr.fewerSeen.trans (hloop.trans (SameSeen.fewerSeen (.of_reqPart ?_)))
      rfl

theorem fewerSeen_processCompletion (d : Descq) (hto : ToServe d d.pendList) (budget : ℤ)
    (fill : ℕ → FillOutcome) : FewerSeen d (descqProcessCompletionStC2h d budget fill).1 := by
  unfold descqProcessCompletionStC2h
  simp only
  split_ifs
  · exact FewerSeen.refl d
  · exact FewerSeen.refl d
  · exact FewerSeen.refl d
  · have hloop := reqPart_loopFrame.procLoop (procBudget budget
      (ringIdxDelta d.descWrb.wbPidx d.cidxWrb d.conf.rngszWrb)) { d := d, pidx := d.pidx }
    generalize procLoop (procBudget budget (ringIdxDelta d.descWrb.wbPidx d.cidxWrb
      d.conf.rngszWrb)) { d := d, pidx := d.pidx } = p at hloop
    have hsame : SameSeen d p.d := .of_reqPart hloop
    have hpend : p.d.pendList = d.pendList := congrArg (·.2.1) hloop
    split
    · exact hsame.fewerSeen
    · have hrefill : ∀ d', FewerSeen d' (descqWrbCidxUpdate (procRefill d' d.flq.pidxPend fill)
          (procRefill d' d.flq.pidxPend fill).cidxWrbPend) :=
        fun d' => SameSeen.fewerSeen (.of_reqPart
          (show (procRefill d' d.flq.pidxPend fill).reqPart = _ from
            reqPart_rxFrame.procRefill d' _ fill))
      have hset : SameSeen d { p.d with pidxWrb := d.descWrb.wbPidx, pidx := p.pidx } :=
        ⟨hsame.listed, hsame.finished⟩
      unfold procEnd
      simp only
      split_ifs
      · refine FewerSeen.trans (hset.fewerSeen.trans (fewerSeen_packetsProc _ _ ?_)) (hrefill _)
        show ToServe _ p.d.pendList
        rw [hpend]
        exact hto.congr hset
      · exact hset.fewerSeen.trans (hrefill _)
      · exact hsame.fewerSeen

/-- **Step lemma.** -/
theorem IdsInv.step {s : QSys} (h : IdsInv s) (l : QLabel) : IdsInv (s.step l) := by
  have hsame : ∀ {q : Descq}, q.reqPart = s.q.reqPart → IdsInv { s with q := q } :=
    fun hq => h.fewer (SameSeen.of_reqPart hq).fewerSeen rfl le_rfl
  cases l with
  | submit req mapped => exact h.submit req mapped
  | pend id =>
      unfold QSys.step
      simp only
      split
      · next cb hfind => exact h.pend (List.mem_of_find?_eq_some hfind)
      · exact h
  | worker => exact h.fewer (fewerSeen_wrkProcLoop _ _ h.toServe.1) rfl le_rfl
  | service budget fill =>
      refine h.fewer ?_ rfl le_rfl
      show FewerSeen s.q (qdmaDescqServiceWb s.q budget fill)
      unfold qdmaDescqServiceWb
      split_ifs
      · exact fewerSeen_processCompletion s.q h.toServe.2 budget fill
      · exact fewerSeen_wb s.q h.toServe.2
  | wait id =>
      refine h.fewer ?_ rfl le_rfl
      show FewerSeen s.q (qdmaRequestWaitForCmpl s.q id).1
      unfold qdmaRequestWaitForCmpl
      cases s.q.doneCb id with
      | none =>
          -- a wait that times out takes the request off its lists
          refine ⟨fun i => ?_, fun f => .inl⟩
          show (s.q.listDel id).listed i + s.q.completed i ≤ s.q.listed i + s.q.completed i
          rw [listed_listDel]
          split_ifs <;> omega
      | some cb => exact FewerSeen.refl s.q
  | packetRead req =>
      have hsame := SameSeen.of_reqPart (reqPart_rxFrame.packetRead s.q s.nreq req)
      exact h.fewer hsame.fewerSeen rfl (Nat.le_succ _)
  | device wbCidx mem wbPidx page =>
      refine hsame ?_
      unfold Descq.deviceWrites
      simp only
      split_ifs <;> rfl
  | stop ctxCleared =>
      unfold QSys.step
      simp only
      split_ifs
      · exact hsame (reqPart_stop s.q ctxCleared)
      · exact h
  | reconfig qconf numVecs => exact hsame (reqPart_reconfig s.q qconf numVecs)
  | start env =>
      unfold QSys.step
      simp only
      split_ifs
      · exact hsame (reqPart_start s.q env)
      · exact h

/-! ## Stopping -/

/-- The stop that led from `d` to `d'` has completed every request in error. -/
structure Drained (d d' : Descq) : Prop where
  workList : d'.workList = []
  pendList : d'.pendList = []
  failed : ∀ c ∈ d.workList ++ d.pendList,
    ∃ f ∈ d'.finished, f.cb.id = c.id ∧ f.cb.done = true ∧ f.cb.status < 0

/-- **Requests are completed at most once**, and taken off their list then; but a stop
completes those it finds only where there are none. -/
theorem stop_drains_iff {d : Descq} {evs : List QLabel} {s : QSys} (hadd : AddedQueue d)
    (hrun : Run QSys.step QLabel.Ok { q := d } evs s) :
    (s.q.finished.map (fun f => f.cb.id)).Nodup ∧
      (∀ f ∈ s.q.finished, f.cb.done = true ∧
        ∀ c ∈ s.q.workList ++ s.q.pendList, c.id ≠ f.cb.id) ∧
      ∀ ctxCleared, s.q.enabled = true →
        (Drained s.q (s.step (.stop ctxCleared)).q ↔ s.q.workList = [] ∧ s.q.pendList = []) := by
  have hinit : IdsInv { q := d } := by
    have hnone : ∀ i, d.seen i = 0 := by
      intro i
      unfold Descq.seen Descq.listed Descq.completed
      rw [hadd.workList, hadd.pendList, hadd.finished]
      rfl
    refine ⟨fun i => ?_, fun i _ => ?_, fun f hf => ?_⟩
    · rw [hnone i]
      exact Nat.zero_le 1
    · rw [hnone i]
      rfl
    · rw [hadd.finished] at hf
      exact absurd hf List.not_mem_nil
  have h : IdsInv s := hrun.invariant hinit (fun _ l hs _ => hs.step l)
  refine ⟨List.nodup_iff_count_le_one.mpr (fun i => ?_), fun f hf => ⟨h.done f hf, ?_⟩, ?_⟩
  · have honce := h.once i
    unfold Descq.seen Descq.completed at honce
    omega
  · intro c hc heq
    have honce := h.once f.cb.id
    -- an id is finished or listed, not both, and once at most
    have hcompleted : 0 < s.q.completed f.cb.id :=
      List.count_pos_iff.mpr (List.mem_map_of_mem (f := fun f => f.cb.id) hf)
    have hlisted : 0 < s.q.listed f.cb.id := by
      rw [← heq]
      rcases List.mem_append.mp hc with hc | hc
      · exact h.toServe.1.listed c hc
      · exact h.toServe.2.listed c hc
    unfold Descq.seen at honce
    omega
  · intro ctxCleared hen
    have hstep : (s.step (.stop ctxCleared)).q = descqStop s.q ctxCleared := by
      simp only [QSys.step, hen, if_true]
    have hpart := reqPart_stop s.q ctxCleared
    rw [hstep]
    constructor
    · intro hdr
      exact ⟨(congrArg (·.1) hpart).symm.trans hdr.workList,
        (congrArg (·.2.1) hpart).symm.trans hdr.pendList⟩
    · rintro ⟨hw, hp⟩
      refine ⟨(congrArg (·.1) hpart).trans hw, (congrArg (·.2.1) hpart).trans hp, fun c hc => ?_⟩
      rw [hw, hp] at hc
      exact absurd hc List.not_mem_nil

instance (s : QSys) (l : QLabel) : Decidable (l.Ok s) :=
  match l with
  | .wait _ => inferInstanceAs (Decidable (_ ∈ _))
  | .submit _ _ | .pend _ | .worker | .service _ _ | .packetRead _ | .device _ _ _ _ | .stop _
  | .reconfig _ _ | .start _ => inferInstanceAs (Decidable True)

/-- A read is completed, then the queue is stopped. -/
theorem stop_drains_served :
    let s := (QLabel.start (goodStart (csrOf 4)) :: cleanTraffic).foldl QSys.step { q := addedC2h }
    s.q.enabled = true ∧ s.q.finished.map (fun f => f.cb.id) = [0] ∧
      Drained s.q (s.step (.stop true)).q :=
  ⟨by decide +kernel, by decide +kernel,
    ((stop_drains_iff addedC2h_added (Run.under QLabel.Ok
      (QLabel.start (goodStart (csrOf 4)) :: cleanTraffic) (by decide +kernel))).2.2 true
        (by decide +kernel)).mpr ⟨by decide +kernel, by decide +kernel⟩⟩

/-- **A stop leaves a request behind**, and so does the start after it. -/
theorem stop_leaves_request :
    let s := [QLabel.start (goodStart (csrOf 4)), .submit (readReq 4) false, .pend 0].foldl
      QSys.step { q := addedC2h }
    s.q.enabled = true ∧ ¬ Drained s.q (s.step (.stop true)).q ∧
      ((s.step (.stop true)).step (.start (goodStart (csrOf 4)))).q.pendList.length = 1 := by
  refine ⟨by decide +kernel, fun h => ?_, by decide +kernel⟩
  have hlen := congrArg List.length h.pendList
  exact absurd hlen (by decide +kernel)

end Qdma
