/-
# Waiting for data that is there

A reader looks for data in one locked section and joins `pend_list` in another; a service
call reads for those on `pend_list`, but only when it finds new completion entries.  A reader
that joins after the last entry has been gone through may wait for data that is there.

`no_lost_wakeup` says when this does not happen: a reader joins only while nothing is unread,
or while there are entries to go through or other readers still to join.
-/
import Qdma.FreeListLaw

namespace Qdma

open RingIndex Exec

/-! ## The requests of a queue -/

/-- **The law of the requests**: those on `pend_list` and those still to join wait for
something, and are different ones. -/
structure WaitersInv (s : Rx) : Prop where
  waits : ∀ cb ∈ s.q.pendList ++ s.parked, CbWaits cb
  nodup : ((s.q.pendList ++ s.parked).map SgtReqCb.id).Nodup
  fresh : ∀ cb ∈ s.q.pendList ++ s.parked, cb.id < s.nreq

/-- A submitted read asks for as much as its scatter-gather list has room for. -/
def RxLabel.Sized : RxLabel → Prop
  | .submit req => req.write = true ∨ req.count = (req.sgl.map SwSg.len).sum
  | _ => True

/-- A list of requests that got smaller. -/
theorem WaitersInv.sublist {s s' : Rx} (h : WaitersInv s)
    (hsub : (s'.q.pendList ++ s'.parked).Sublist (s.q.pendList ++ s.parked))
    (hn : s.nreq ≤ s'.nreq) : WaitersInv s' := by
  refine ⟨fun cb hcb => h.waits cb (hsub.subset hcb), h.nodup.sublist (hsub.map _), fun cb hcb => ?_⟩
  exact (h.fresh cb (hsub.subset hcb)).trans_le hn

/-- The same requests. -/
theorem WaitersInv.same {s s' : Rx} (h : WaitersInv s) (hpend : s'.q.pendList = s.q.pendList)
    (hparked : s'.parked = s.parked) (hn : s.nreq ≤ s'.nreq) : WaitersInv s' :=
  h.sublist (by rw [hpend, hparked]) hn

/-- A new control block fits its request. -/
theorem cbFits_new {req : Request} (hsize : req.count = (req.sgl.map SwSg.len).sum) (id : ℕ) :
    CbFits (req.newC2hCb id) := by
  refine ⟨⟨rfl, fun _ _ => Nat.zero_le _, fun _ => rfl⟩, ?_, req.count_lt⟩
  exact hsize

theorem WaitersInv.submit {s : Rx} {r pend : ℕ} (h : WaitersInv s) (hrx : RxInv s r pend)
    {req : Request} (hsize : (RxLabel.submit req).Sized) : WaitersInv (s.submit req) := by
  by_cases hwr : req.write = true
  · unfold Rx.submit
    simp only [hwr, if_true]
    exact h.same rfl rfl (Nat.le_succ _)
  · obtain ⟨k, log, hread⟩ := hrx.serving.rx.read hrx.pidx (req.newC2hCb s.nreq) true true
      (fun _ => rfl)
    have hfits := cbFits_new (hsize.resolve_left hwr) s.nreq
    unfold Rx.submit submitStC2hRead
    simp only [hwr, Bool.false_eq_true, if_false]
    split_ifs with hleft
    · exact h.same hread.pendList rfl (Nat.le_succ _)
    · have hcb := hread.waits hfits hleft
      have hid : (descqStC2hRead s.q (req.newC2hCb s.nreq) true true).2.1.id = s.nreq :=
        hread.cb_eq.1
      generalize (descqStC2hRead s.q (req.newC2hCb s.nreq) true true).2.1 = cb at hcb hid
      -- the request that waits comes last, with an id of its own
      have hlist : (descqStC2hRead s.q (req.newC2hCb s.nreq) true true).1.pendList
          ++ (s.parked ++ [cb]) = s.q.pendList ++ s.parked ++ [cb] := by
        rw [hread.pendList, List.append_assoc]
      constructor
      · show ∀ c ∈ _ ++ (s.parked ++ [cb]), CbWaits c
        rw [hlist]
        intro c hc
        rcases List.mem_append.mp hc with hc | hc
        · exact h.waits c hc
        · rw [List.mem_singleton.mp hc]
          exact hcb
      · show ((_ ++ (s.parked ++ [cb])).map SgtReqCb.id).Nodup
        rw [hlist, List.map_append, List.map_singleton, List.nodup_append]
        refine ⟨h.nodup, List.nodup_singleton _, fun a ha b hb => ?_⟩
        obtain ⟨c, hc, rfl⟩ := List.mem_map.mp ha
        rw [List.mem_singleton.mp hb, hid]
        exact (h.fresh c hc).ne
      · show ∀ c ∈ _ ++ (s.parked ++ [cb]), c.id < s.nreq + 1
        rw [hlist]
        intro c hc
        rcases List.mem_append.mp hc with hc | hc
        · exact (h.fresh c hc).trans (Nat.lt_succ_self _)
        · rw [List.mem_singleton.mp hc, hid]
          exact Nat.lt_succ_self _

theorem WaitersInv.packetRead {s : Rx} {r pend : ℕ} (h : WaitersInv s) (hrx : RxInv s r pend)
    (req : Request) : WaitersInv (s.packetRead req) := by
  have hparked : (s.packetRead req).parked = s.parked := rfl
  obtain ⟨-, hq | hq⟩ := packetRead_rx s req
  · exact h.same (by rw [hq]) hparked (Nat.le_succ _)
  · obtain ⟨k, log, hread⟩ := hrx.serving.rx.read hrx.pidx { id := s.nreq, req := req } true true
      (fun _ => rfl)
    exact h.same (by rw [hq, hread.pendList]) hparked (Nat.le_succ _)

theorem WaitersInv.pendCb {s : Rx} (h : WaitersInv s) {cb : SgtReqCb} (hcb : cb ∈ s.parked) :
    WaitersInv (s.pendCb cb) := by
  obtain ⟨-, hparked, hq⟩ := pendCb_rx s cb
  have hn : (s.pendCb cb).nreq = s.nreq := by
    unfold Rx.pendCb
    simp only
    split
    · rfl
    · split_ifs <;> rfl
  have hrest : (s.parked.filter (fun c => c.id ≠ cb.id)).Sublist s.parked := List.filter_sublist
  rcases hq with hq | hq
  · refine h.sublist ?_ hn.ge
    rw [hq, hparked]
    exact hrest.append_left _
  · have hpend : (s.pendCb cb).q.pendList = s.q.pendList ++ [cb] := by rw [hq]; rfl
    have hmem : ∀ c ∈ (s.pendCb cb).q.pendList ++ (s.pendCb cb).parked,
        c ∈ s.q.pendList ++ s.parked := by
      rw [hpend, hparked]
      intro c hc
      rcases List.mem_append.mp hc with hc | hc
      · rcases List.mem_append.mp hc with hc | hc
        · exact List.mem_append_left _ hc
        · rw [List.mem_singleton.mp hc]
          exact List.mem_append_right _ hcb
      · exact List.mem_append_right _ (hrest.subset hc)
    refine ⟨fun c hc => h.waits c (hmem c hc), ?_, fun c hc => ?_⟩
    · -- the request moves from the one list to the other
      have hnd := h.nodup
      rw [List.map_append, List.nodup_append] at hnd
      obtain ⟨n1, n2, n3⟩ := hnd
      rw [hpend, hparked, List.append_assoc, List.map_append, List.nodup_append, List.map_append,
        List.nodup_append]
      refine ⟨n1, ⟨List.nodup_singleton _, n2.sublist (hrest.map _), ?_⟩, ?_⟩
      · intro a ha b hb
        rw [List.mem_singleton.mp ha]
        obtain ⟨c, hc, rfl⟩ := List.mem_map.mp hb
        exact (by simpa using (List.mem_filter.mp hc).2 : c.id ≠ cb.id).symm
      · intro a ha b hb
        rcases List.mem_append.mp hb with hb | hb
        · rw [List.mem_singleton.mp hb]
          exact n3 a ha _ (List.mem_map_of_mem hcb)
        · exact n3 a ha b ((hrest.map _).subset hb)
    · rw [hn]
      exact h.fresh c (hmem c hc)

theorem WaitersInv.wait {s : Rx} (h : WaitersInv s) (id : ℕ) : WaitersInv (s.wait id) := by
  have hparked : (s.wait id).parked = s.parked := rfl
  obtain ⟨-, hq | hq⟩ := wait_rx s id
  · exact h.same (by rw [hq]) hparked le_rfl
  · refine h.sublist ?_ le_rfl
    rw [hq, hparked]
    exact List.filter_sublist.append_right _

/-- What a service call did to the requests, if it went through entries. -/
theorem WaitersInv.drawn {s : Rx} {r pend k : ℕ} {q1 q' : Descq} {log : List Copy}
    (h : WaitersInv s) (hsame : SameReqs s.q q1) (hdone : Serviced q1 s.sent r pend k log q') :
    Drawn q1 s.q.pendList pend (allBufs q1.conf.c2hBufsz (s.sent.take r)) k log q' := by
  have hnd := h.nodup
  rw [List.map_append, List.nodup_append] at hnd
  have hdrawn := hdone.waiting
    (by rw [hsame.pendList]; exact fun cb hcb => h.waits cb (List.mem_append_left _ hcb))
    (by rw [hsame.pendList]; exact hnd.1)
  rwa [hsame.pendList] at hdrawn

theorem WaitersInv.service {s : Rx} {r pend : ℕ} (h : WaitersInv s) (hrx : RxInv s r pend)
    (budget : ℤ) (fill : ℕ → FillOutcome) : WaitersInv (s.step (.service budget fill)) := by
  rcases hrx.service budget fill with hq | ⟨k, log, q1, -, -, -, hsame, hdone⟩
  · exact h.same (by rw [hq]) rfl le_rfl
  · obtain ⟨-, hwaits, hids, -⟩ := h.drawn hsame hdone
    have hmem : ∀ i ∈ (s.step (.service budget fill)).q.pendList.map SgtReqCb.id,
        i ∈ s.q.pendList.map SgtReqCb.id := fun i hi => hids.subset hi
    refine ⟨fun cb hcb => ?_, ?_, fun cb hcb => ?_⟩
    · rcases List.mem_append.mp hcb with hcb | hcb
      · exact hwaits cb hcb
      · exact h.waits cb (List.mem_append_right _ hcb)
    · rw [List.map_append]
      refine h.nodup.sublist ?_
      rw [List.map_append]
      exact hids.sublist.append_right _
    · rcases List.mem_append.mp hcb with hcb | hcb
      · obtain ⟨c, hc, heq⟩ := List.mem_map.mp (hmem _ (List.mem_map_of_mem hcb))
        rw [← heq]
        exact h.fresh c (List.mem_append_left _ hc)
      · exact h.fresh cb (List.mem_append_right _ hcb)

/-- **Step lemma** of the requests. -/
theorem WaitersInv.step {s : Rx} {r pend : ℕ} (h : WaitersInv s) (hrx : RxInv s r pend)
    {l : RxLabel} (hl : l.Sized) : WaitersInv (s.step l) := by
  cases l with
  | submit req => exact h.submit hrx hl
  | pend id =>
      rcases step_pend_cases s id with heq | ⟨cb, hcb, -, heq⟩
      · rw [heq]
        exact h
      · rw [heq]
        exact h.pendCb hcb
  | wait id => exact h.wait id
  | packetRead req => exact h.packetRead hrx req
  | service budget fill => exact h.service hrx budget fill
  | dma word payload => exact h.same rfl rfl le_rfl
  | publish p => exact h.same rfl rfl le_rfl

/-! ## Lost wake-ups -/

/-- An unread byte is held in the free list. -/
def Descq.HoldsUnread (d : Descq) : Prop := d.flq.pidxPend ≠ d.pidx ∧ 0 < d.flq.pktDlen

instance (d : Descq) : Decidable d.HoldsUnread := inferInstanceAs (Decidable (_ ∧ _))

/-- A request waits for data. -/
def Descq.HasWaiter (d : Descq) : Prop := ∃ cb ∈ d.pendList, 0 < cb.left

instance (d : Descq) : Decidable d.HasWaiter := inferInstanceAs (Decidable (∃ cb ∈ d.pendList, _))

/-- Nothing is under way: every entry posted is processed, so that a service call does
nothing (`Quiet.service`), and no reader is between its two locked sections. -/
structure Quiet (s : Rx) : Prop where
  processed : s.q.cidxWrb = s.q.descWrb.wbPidx
  posted : s.q.descWrb.wbPidx = s.wrbPidx
  parked : s.parked = []

/-- A request waits for data that is there. -/
structure LostWakeup (s : Rx) : Prop where
  quiet : Quiet s
  unread : s.q.HoldsUnread
  waiter : s.q.HasWaiter

/-- A reader joins `pend_list` while nothing is unread, or while there are entries to go
through or other readers still to join; a read asks for what its list has room for. -/
def RxAwake (s : Rx) : RxLabel → Prop
  | .submit req => (RxLabel.submit req).Sized
  | .pend id => s.q.HoldsUnread → s.q.cidxWrb ≠ s.wrbPidx ∨ ∃ cb ∈ s.parked, cb.id ≠ id
  | _ => True

instance (s : Rx) (l : RxLabel) : Decidable (RxAwake s l) :=
  match l with
  | .submit _ => inferInstanceAs (Decidable (_ ∨ _))
  | .pend _ => inferInstanceAs (Decidable (_ → _))
  | .wait _ | .packetRead _ | .service _ _ | .dma _ _ | .publish _ =>
      inferInstanceAs (Decidable True)

theorem RxAwake.sized {s : Rx} {l : RxLabel} (h : RxAwake s l) : l.Sized := by
  cases l with
  | submit req => exact h
  | _ => trivial

/-- In a quiet state a service call does nothing. -/
theorem Quiet.service {s : Rx} {r pend : ℕ} (h : Quiet s) (hrx : RxInv s r pend) (budget : ℤ)
    (fill : ℕ → FillOutcome) : s.step (.service budget fill) = s := by
  have hdue : s.due budget = 0 := by
    have hmod := h.processed.symm
    unfold Rx.due
    rw [hmod, dist_self]
    have := procBudget_le budget 0
    omega
  rcases hrx.service budget fill with hq | ⟨_, _, _, _, hpos, _⟩
  · show { s with q := _ } = s
    have hq' : (descqProcessCompletionStC2h s.q budget fill).1 = s.q := hq
    rw [hq']
  · omega

/-- **The law of wake-ups.**  While a request waits for data that is there, entries are still
to be gone through or readers still to join. -/
structure AwakeInv (s : Rx) (r pend : ℕ) : Prop where
  rx : RxInv s r pend
  waiters : WaitersInv s
  awake : s.q.HoldsUnread → s.q.HasWaiter → r < s.sent.length ∨ s.parked ≠ []

/-- In a quiet state all entries are gone through. -/
theorem AwakeInv.not_lost {s : Rx} {r pend : ℕ} (h : AwakeInv s r pend) : ¬ LostWakeup s := by
  rintro ⟨⟨h1, h2, h3⟩, hunread, hwaiter⟩
  rcases h.awake hunread hwaiter with hlt | hne
  · have hmod : r % s.q.conf.rngszWrb = s.sent.length % s.q.conf.rngszWrb := by
      rw [← h.rx.serving.ring.cidx, h1, h2, h.rx.wrbPidx]
    exact absurd hmod (mod_ne_mod hlt h.rx.lt_lap)
  · exact hne h3

/-- A step of the callers that reads nothing new. -/
theorem AwakeInv.same {s s' : Rx} {r pend pend' : ℕ} (h : AwakeInv s r pend)
    (hrx : RxInv s' r pend')
    (hw : WaitersInv s') (hunread : s'.q.HoldsUnread → s.q.HoldsUnread)
    (hpend : ∀ cb ∈ s'.q.pendList, cb ∈ s.q.pendList) (hsent : s.sent.length ≤ s'.sent.length)
    (hparked : s'.parked = s.parked) : AwakeInv s' r pend' := by
  refine ⟨hrx, hw, fun hu hwait => ?_⟩
  obtain ⟨cb, hcb, hleft⟩ := hwait
  rcases h.awake (hunread hu) ⟨cb, hpend cb hcb, hleft⟩ with hlt | hne
  · exact .inl (by omega)
  · exact .inr (hparked ▸ hne)

/-- A read finds nothing where nothing is unread. -/
theorem ReadDone.unread {q q' : Descq} {cb cb' : SgtReqCb} {upd refill : Bool} {base pend k : ℕ}
    {bufs : List Buf} {log : List Copy}
    (h : ReadDone q cb upd refill base pend bufs k log q' cb') (hrx : Receiving q base pend bufs)
    (hpidx : q.pidx = bufs.length % q.conf.rngsz) (hu : q'.HoldsUnread) : q.HoldsUnread := by
  obtain ⟨hne, hpos⟩ := hu
  have hdlen := h.dlen
  refine ⟨fun heq => hne ?_, by omega⟩
  have hl := hrx.fl.pend_le
  have hlt := hrx.fl.lt
  have hb := hrx.fl.base_le
  have hle := h.rx.fl.pend_le
  have hmod : pend % q.conf.rngsz = bufs.length % q.conf.rngsz :=
    hrx.pidxPend.symm.trans (heq.trans hpidx)
  have hpend : pend = bufs.length := by
    by_contra hne'
    exact absurd hmod (mod_ne_mod (by omega) (by omega))
  have hk : k = 0 := by omega
  rw [h.rx.pidxPend, h.same.pidx, h.same.conf, hk, Nat.add_zero, ← hrx.pidxPend]
  exact heq

theorem AwakeInv.submit {s : Rx} {r pend : ℕ} (h : AwakeInv s r pend) {req : Request}
    (hsize : (RxLabel.submit req).Sized) : ∃ k, AwakeInv (s.submit req) r (pend + k) := by
  obtain ⟨k, hrx⟩ := h.rx.submit req
  have hw := h.waiters.submit h.rx hsize
  obtain ⟨hd, hq⟩ := submit_rx s req
  refine ⟨k, hrx, hw, fun hu hwait => ?_⟩
  have hback : s.q.HoldsUnread ∧ s.q.HasWaiter := by
    split_ifs at hq
    · rw [hq] at hu hwait
      exact ⟨hu, hwait⟩
    · obtain ⟨k', log, hread⟩ := h.rx.serving.rx.read h.rx.pidx (req.newC2hCb s.nreq) true true
        (fun _ => rfl)
      rw [hq] at hu hwait
      refine ⟨hread.unread h.rx.serving.rx h.rx.pidx hu, ?_⟩
      unfold Descq.HasWaiter at hwait ⊢
      rwa [hread.pendList] at hwait
  rcases h.awake hback.1 hback.2 with hlt | hne
  · exact .inl (by rw [hd.sent]; exact hlt)
  · right
    have hparked : ∃ rest, (s.submit req).parked = s.parked ++ rest := by
      unfold Rx.submit
      simp only
      split_ifs
      · exact ⟨[], (List.append_nil _).symm⟩
      · exact ⟨[], (List.append_nil _).symm⟩
      · exact ⟨_, rfl⟩
    obtain ⟨rest, hrest⟩ := hparked
    rw [hrest]
    exact List.append_ne_nil_of_left_ne_nil hne rest

theorem AwakeInv.packetRead {s : Rx} {r pend : ℕ} (h : AwakeInv s r pend) (req : Request) :
    ∃ k, AwakeInv (s.packetRead req) r (pend + k) := by
  obtain ⟨k, hrx⟩ := h.rx.packetRead req
  have hw := h.waiters.packetRead h.rx req
  obtain ⟨hd, hq | hq⟩ := packetRead_rx s req
  · exact ⟨k, h.same hrx hw (by rw [hq]; exact id) (by rw [hq]; exact fun _ => id)
      (by rw [hd.sent]) rfl⟩
  · obtain ⟨k', log, hread⟩ := h.rx.serving.rx.read h.rx.pidx { id := s.nreq, req := req } true true
      (fun _ => rfl)
    refine ⟨k, h.same hrx hw ?_ ?_ (by rw [hd.sent]) rfl⟩
    · rw [hq]
      exact hread.unread h.rx.serving.rx h.rx.pidx
    · rw [hq, hread.pendList]
      exact fun _ => id

/-- A reader that joins finds nothing unread, or is not the last thing to happen. -/
theorem AwakeInv.pendCb {s : Rx} {r pend : ℕ} (h : AwakeInv s r pend) {cb : SgtReqCb}
    (hcb : cb ∈ s.parked) (hok : RxAwake s (.pend cb.id)) : AwakeInv (s.pendCb cb) r pend := by
  obtain ⟨hd, hparked, hq⟩ := pendCb_rx s cb
  refine ⟨h.rx.pendCb cb, h.waiters.pendCb hcb, fun hu _ => ?_⟩
  have hunread : s.q.HoldsUnread := by
    rcases hq with hq | hq
    · rwa [hq] at hu
    · rw [hq] at hu
      exact hu
  rcases hok hunread with hne | ⟨c, hc, hne⟩
  · left
    have hle := h.rx.serving.ring.le
    rw [hd.sent]
    refine Nat.lt_of_le_of_ne hle (fun heq => hne ?_)
    rw [h.rx.serving.ring.cidx, h.rx.wrbPidx, heq]
  · right
    rw [hparked]
    exact List.ne_nil_of_mem (List.mem_filter.mpr ⟨hc, by simpa using hne⟩)

/-- A service call that goes through entries reads for those who wait until nothing is
unread. -/
theorem AwakeInv.service {s : Rx} {r pend : ℕ} (h : AwakeInv s r pend) (budget : ℤ)
    (fill : ℕ → FillOutcome) : ∃ r' pend', AwakeInv (s.step (.service budget fill)) r' pend' := by
  have hw := h.waiters.service h.rx budget fill
  rcases h.rx.service budget fill with hq | ⟨k, log, q1, hrx, -, -, hsame, hdone⟩
  · exact ⟨r, pend, h.same (h.rx.same ⟨rfl, rfl, rfl, rfl⟩ hq) hw (by rw [hq]; exact id)
      (by rw [hq]; exact fun _ => id) le_rfl rfl⟩
  · refine ⟨_, _, hrx, hw, fun hu hwait => ?_⟩
    rcases (h.waiters.drawn hsame hdone).done with hnil | hall
    · obtain ⟨cb, hcb, -⟩ := hwait
      rw [hnil] at hcb
      exact absurd hcb List.not_mem_nil
    · refine absurd ?_ hu.1
      rw [hrx.serving.rx.pidxPend, hrx.pidx, hall, hdone.conf]
      rfl

/-- **Step lemma.** -/
theorem AwakeInv.step {s : Rx} (h : ∃ r pend, AwakeInv s r pend) {l : RxLabel} (hl : RxLegal s l)
    (hok : RxAwake s l) : ∃ r pend, AwakeInv (s.step l) r pend := by
  obtain ⟨r, pend, h⟩ := h
  have hw := h.waiters.step h.rx hok.sized
  cases l with
  | submit req =>
      obtain ⟨k, hk⟩ := h.submit hok
      exact ⟨r, _, hk⟩
  | pend id =>
      refine ⟨r, pend, ?_⟩
      rcases step_pend_cases s id with heq | ⟨cb, hcb, rfl, heq⟩
      · rw [heq]
        exact h
      · rw [heq]
        exact h.pendCb hcb hok
  | wait id =>
      obtain ⟨hd, hq⟩ := wait_rx s id
      refine ⟨r, pend, ?_⟩
      show AwakeInv (s.wait id) r pend
      refine h.same (h.rx.wait id) hw ?_ ?_ (congrArg List.length hd.sent).ge rfl
      · rcases hq with hq | hq <;> rw [hq] <;> exact fun hu => hu
      · rcases hq with hq | hq <;> rw [hq]
        · exact fun _ hc => hc
        · exact fun cb hcb => (List.mem_filter.mp hcb).1
  | packetRead req =>
      obtain ⟨k, hk⟩ := h.packetRead req
      exact ⟨r, _, hk⟩
  | service budget fill => exact h.service budget fill
  | dma word payload =>
      refine ⟨r, pend, h.rx.dma hl, hw, fun _ _ => .inl ?_⟩
      have hle := h.rx.serving.ring.le
      show r < (s.sent ++ [_]).length
      rw [List.length_append, List.length_singleton]
      omega
  | publish p => exact ⟨r, pend, h.same (h.rx.publish hl.1 hl.2) hw (fun hu => hu) (fun _ hc => hc)
      le_rfl rfl⟩

/-- A queue just started has no requests and no data. -/
theorem StartedRx.awakeInv {q : Descq} (h : StartedRx q) : AwakeInv { q := q } 0 0 := by
  have hnil : q.pendList = [] := h.unused.1
  refine ⟨h.rxInv, ⟨?_, ?_, ?_⟩, ?_⟩
  · rw [hnil]
    exact fun _ hcb => absurd hcb List.not_mem_nil
  · rw [hnil]
    exact List.nodup_nil
  · rw [hnil]
    exact fun _ hcb => absurd hcb List.not_mem_nil
  · rintro - ⟨cb, hcb, -⟩
    rw [hnil] at hcb
    exact absurd hcb List.not_mem_nil

/-- **No wake-up is lost** in a run in which no reader comes to its second locked section when
data is unread, all entries are gone through and no other reader is to follow. -/
theorem no_lost_wakeup {q : Descq} (h : StartedRx q) {evs : List RxLabel} {s : Rx}
    (hrun : Run Rx.step (fun s l => RxLegal s l ∧ RxAwake s l) { q := q } evs s) :
    ¬ LostWakeup s := by
  obtain ⟨r, pend, hinv⟩ := hrun.invariant (I := fun s => ∃ r pend, AwakeInv s r pend)
    ⟨0, 0, h.awakeInv⟩ (fun _ _ hi hl => AwakeInv.step hi hl.1 hl.2)
  exact hinv.not_lost

/-! ## Concrete runs -/

/-- A reader joins before the packet arrives and another one after it is read. -/
theorem no_lost_wakeup_two :
    let s := [RxLabel.submit (readReq 4), .pend 0, .submit (readReq 6),
      .dma (cmplWord true 4) [1, 2, 3, 4], .publish 1, .service 0 (fun _ => .noMem),
      .pend 1].foldl Rx.step startedRx
    s.q.HasWaiter ∧ ¬ LostWakeup s :=
  ⟨by decide +kernel, no_lost_wakeup startedRx_started (Run.of_admits _ (by decide +kernel))⟩

/-- **A wake-up is lost.**  A packet of 10 bytes arrives for a read of 4 while a second reader
is between its two locked sections: it waits for the 6 bytes that are there, whatever service
calls follow. -/
theorem reader_misses_data :
    let evs := [RxLabel.submit (readReq 4), .pend 0, .submit (readReq 6),
      .dma (cmplWord true 10) (List.replicate 10 7), .publish 1, .service 0 (fun _ => .noMem),
      .pend 1, .service 0 (fun _ => .noMem)]
    let s := evs.foldl Rx.step startedRx
    Run Rx.step RxLegal startedRx evs s ∧ s.q.flq.pktDlen = 6 ∧ LostWakeup s :=
  ⟨Run.of_admits _ (by decide +kernel), by decide +kernel,
    ⟨by decide +kernel, by decide +kernel, by decide +kernel⟩, by decide +kernel,
    by decide +kernel⟩

end Qdma
