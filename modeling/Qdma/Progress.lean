/-
# Requests get done

A queue with its device and its callers, as in `Qdma.Transfer`, to which nothing new is submitted.
The worker hands over as many moves as fit, the device carries out one after the other and reports
how far it has come, a writeback hands back the requests that are finished, and their callers
return.  Each of these may be idle: the worker with nothing to do or no room, the writeback with no
news.

`Rig.toGo` counts what there is to do.  `requests_get_done` says that in whatever order these steps
come, only so many are not idle, and that as long as a request is not handed back or a caller has
not returned, one of them is not.
-/
import Qdma.Transfer
import Qdma.Descent

namespace Qdma

open RingIndex Exec JobLine Blocks

/-- A step by which something gets done. -/
def Rig.Works (r : Rig) : Deed → Prop
  | .drv .worker => r.q.workList ≠ [] ∧ 0 < r.q.avail
  | .drv (.hw c) => c ≠ r.q.desc.wbCidx
  | .drv .wb => r.q.desc.wbCidx ≠ r.q.cidx
  | .drv (.wait _) | .exec => True
  | .drv (.submit _ _) | .outside _ => False

instance Rig.decidableWorks (r : Rig) (d : Deed) : Decidable (r.Works d) :=
  match d with
  | .drv .worker => inferInstanceAs (Decidable (¬ _ = _ ∧ _))
  | .drv (.hw _) | .drv .wb => inferInstanceAs (Decidable (¬ _ = _))
  | .drv (.wait _) | .exec => inferInstanceAs (Decidable True)
  | .drv (.submit _ _) | .outside _ => inferInstanceAs (Decidable False)

/-- A new request. -/
def Deed.Submits : Deed → Prop
  | .drv (.submit _ _) => True
  | _ => False

/-- A step of a run without new requests. -/
def Rig.Quiet (r : Rig) (d : Deed) : Prop := r.Ok d ∧ ¬ d.Submits

/-- The number of moves that were not handed to the device. -/
def Rig.left (r : Rig) : ℕ :=
  (todo (r.jobs (r.q.doneCbs ++ r.q.reqs))).length - r.q.regs.handed.length

/-- **What is to be done**: a move is handed over, carried out, reported and taken notice of, and a
caller returns. -/
def Rig.toGo (r : Rig) : ℕ :=
  4 * r.left + 3 * dist r.q.conf.rngsz r.exe r.q.pidx
    + 2 * dist r.q.conf.rngsz r.q.desc.wbCidx r.exe
    + dist r.q.conf.rngsz r.q.cidx r.q.desc.wbCidx + r.sys.waiters.length

/-- All requests were handed back, in the order they were queued and as successful. -/
structure Rig.AllBack (r : Rig) : Prop where
  finished : r.q.finished.map (fun f => f.cb.id) = r.sys.queued
  success : ∀ f ∈ r.q.finished, f.cb.status = 0 ∧ f.cb.offset = f.cb.req.count

/-- All requests were handed back, and nobody waits. -/
structure Rig.Done (r : Rig) : Prop extends Rig.AllBack r where
  returned : r.sys.waiters = []

/-! ## Nothing to do -/

/-- A worker pass that finds nothing to do or no room leaves the queue as it is. -/
theorem wrkProc_idle {q : Descq} (h : RingInv q) (hidle : ¬ (q.workList ≠ [] ∧ 0 < q.avail)) :
    qdmaThreadWrkProc q = q := by
  unfold qdmaThreadWrkProc
  cases hw : q.workList with
  | nil => rfl
  | cons cb rest =>
      have h0 : q.avail = 0 := by
        by_contra hne
        exact hidle ⟨hw ▸ List.cons_ne_nil _ _, Nat.pos_of_ne_zero hne⟩
      rw [wrkProcLoop_cons, wrkProcOne_full h h0, if_pos h0]

/-- A worker pass with something to do and room for it hands over a descriptor. -/
theorem wrkProc_posts {queued : List ℕ} {q : Descq} (hinv : CreditInv q) (hfifo : FifoInv queued q)
    (hne : ∀ cb ∈ q.workList, cb.req.sgl ≠ []) (hw : q.workList ≠ []) (h0 : 0 < q.avail) :
    q.regs.handed.length < (qdmaThreadWrkProc q).regs.handed.length := by
  obtain ⟨cb, rest, hw⟩ := List.exists_cons_of_ne_nil hw
  have hmem : cb ∈ q.workList := hw ▸ List.mem_cons_self ..
  have hmore := (hfifo.partway cb hmem).more
  have hlen0 : 0 < cb.req.sgcnt := List.length_pos_iff.mpr (hne cb hmem)
  have hlen := congrArg List.length (wrkProcOne_moves hinv hfifo hw h0 (hne cb hmem))
  rw [List.length_append, List.length_map, List.length_map, List.length_take, List.length_drop,
    Request.length_moves] at hlen
  obtain ⟨k, hk⟩ := wrkProcOne_extends hinv.ring cb
  obtain ⟨l, hl⟩ := wrkProcLoop_extends (hinv.ring.extends hk) rest
  have hgrow : (wrkProcOne q cb).regs.handed.length
      ≤ (wrkProcLoop rest (wrkProcOne q cb)).regs.handed.length := by
    rw [hl.handed, List.length_append]
    exact Nat.le_add_right _ _
  unfold qdmaThreadWrkProc
  rw [hw, wrkProcLoop_cons]
  split_ifs <;> omega

/-! ## What a run maintains -/

/-- **What every run maintains**, besides the invariant of the system. -/
structure Lively (r : Rig) : Prop where
  rig : RigInv r
  two_le : 2 ≤ r.q.conf.rngsz
  jobs : ∀ j ∈ r.jobs r.q.reqs, j.ops ≠ []
  asleep : ∀ id ∈ r.sys.waiters, id ∈ r.sys.queued

/-- The positions of the device and of its reports, as seen from the driver's. -/
theorem RigInv.positions {r : Rig} (h : RigInv r) :
    dist r.q.conf.rngsz r.exe r.q.pidx
        = dist r.q.conf.rngsz r.q.cidx r.q.pidx - dist r.q.conf.rngsz r.q.cidx r.exe ∧
      dist r.q.conf.rngsz r.q.desc.wbCidx r.exe
        = dist r.q.conf.rngsz r.q.cidx r.exe - dist r.q.conf.rngsz r.q.cidx r.q.desc.wbCidx := by
  have hring := h.credit.ring
  exact ⟨dist_add_dist hring.cidx_lt h.exe_lt hring.pidx_lt h.rung,
    dist_add_dist hring.cidx_lt hring.wb_lt h.exe_lt h.reported⟩

/-- All that was handed over was asked for. -/
theorem RigInv.handed_le {r : Rig} (h : RigInv r) :
    r.q.regs.handed.length ≤ (todo (r.jobs (r.q.doneCbs ++ r.q.reqs))).length := by
  have hlen := h.prefix.length_le
  rw [List.length_map, ← todo_append, Rig.jobs, Rig.jobs, ← List.map_append] at hlen
  exact hlen

/-- A writeback moves requests from the lists to those handed back. -/
theorem RigInv.wb_jobs {r : Rig} (h : RigInv r) :
    (r.step (.drv .wb)).jobs ((r.step (.drv .wb)).q.doneCbs ++ (r.step (.drv .wb)).q.reqs)
        = r.jobs (r.q.doneCbs ++ r.q.reqs) ∧
      ∀ j ∈ (r.step (.drv .wb)).jobs (r.step (.drv .wb)).q.reqs, j ∈ r.jobs r.q.reqs := by
  rcases h.credit.wb_eq h.count.noWrap with ⟨-, heq⟩ | ⟨-, heq⟩
  · have hq : (r.step (.drv .wb)).q = r.q := heq
    unfold Rig.jobs
    rw [hq]
    exact ⟨rfl, fun _ hj => hj⟩
  · have hq : (r.step (.drv .wb)).q = r.q.settled := heq
    obtain ⟨done, hdone, hpend, -⟩ := settled_jobs r.q.conf.st r.q
    unfold Rig.jobs Descq.reqs
    rw [hq]
    show (_ ++ (r.q.settled.pendList ++ r.q.workList)).map (SgtReqCb.job r.q.conf.st) = _ ∧
      ∀ j ∈ (r.q.settled.pendList ++ r.q.workList).map (SgtReqCb.job r.q.conf.st), _
    simp only [List.map_append, hdone, hpend, List.append_assoc, true_and]
    exact fun j hj => List.mem_append_right _ hj

/-- A worker pass changes no job. -/
theorem RigInv.worker_jobs {r : Rig} (h : RigInv r) :
    (r.step (.drv .worker)).q.doneCbs = r.q.doneCbs ∧
      (r.step (.drv .worker)).jobs (r.step (.drv .worker)).q.reqs = r.jobs r.q.reqs := by
  have hp := passing_wrkProc h.credit h.fifo h.nonempty h.handed
  refine ⟨congrArg (List.map Done.cb) hp.finished, ?_⟩
  show (qdmaThreadWrkProc r.q).reqs.map (SgtReqCb.job (qdmaThreadWrkProc r.q).conf.st) = _
  rw [hp.conf]
  exact hp.jobs

/-- The end of a wait leaves the queue as it is. -/
theorem wait_eq {r : Rig} {id : ℕ} (hok : r.Ok (.drv (.wait id))) :
    (r.step (.drv (.wait id))).q = r.q ∧
      (r.step (.drv (.wait id))).sys.queued = r.sys.queued ∧
      (r.step (.drv (.wait id))).sys.waiters = r.sys.waiters.filter (· ≠ id) := by
  obtain ⟨cb, hcb⟩ := Option.isSome_iff_exists.mp hok.2
  refine ⟨?_, rfl, rfl⟩
  show (r.sys.wait id).q = r.sys.q
  unfold Sys.wait qdmaRequestWaitForCmpl
  rw [show r.sys.q.doneCb id = some cb from hcb]
  rfl

/-- A caller that goes to sleep waits for a request that was queued. -/
theorem submit_asleep {s : Sys} (h : ∀ id ∈ s.waiters, id ∈ s.queued) (req : Request)
    (mapped : Bool) : ∀ id ∈ (s.submit req mapped).waiters, id ∈ (s.submit req mapped).queued := by
  unfold Sys.submit
  rcases requestSubmit_cases s.q s.nreq req mapped with ⟨rv, heq⟩ | heq
  · simp only [heq]
    exact h
  · have hold : ∀ id ∈ s.waiters, id ∈ s.queued ++ [s.nreq] :=
      fun id hid => List.mem_append_left _ (h id hid)
    simp only [heq]
    split_ifs
    · exact hold
    · intro id hid
      rcases List.mem_append.mp hid with hid | hid
      · exact hold id hid
      · exact List.mem_append_right _ hid

theorem Lively.step {r : Rig} (h : Lively r) {d : Deed} (hok : r.Ok d) : Lively (r.step d) := by
  have hrig := (h.rig.step hok).1
  have htwo : 2 ≤ (r.step d).q.conf.rngsz := by
    rw [h.rig.conf d]
    exact h.two_le
  cases d with
  | drv l =>
      cases l with
      | submit req mapped =>
          refine ⟨hrig, htwo, ?_, submit_asleep h.asleep req mapped⟩
          have hq : (r.step (.drv (.submit req mapped))).q
              = (qdmaRequestSubmit r.q r.sys.nreq req mapped).1 := submit_q _ _ _
          unfold Rig.jobs
          rw [hq]
          rcases requestSubmit_cases r.q r.sys.nreq req mapped with ⟨rv, heq⟩ | heq
          · rw [heq]
            exact h.jobs
          · rw [heq, enqueue_reqs, List.map_append]
            intro j hj
            rcases List.mem_append.mp hj with hj | hj
            · exact h.jobs j hj
            · rw [List.mem_singleton.mp hj]
              refine List.length_pos_iff.mp ?_
              show 0 < (req.moves r.q.conf.st).length
              rw [Request.length_moves]
              exact List.length_pos_iff.mpr hok.2
      | worker =>
          refine ⟨hrig, htwo, ?_, h.asleep⟩
          rw [h.rig.worker_jobs.2]
          exact h.jobs
      | hw c => exact ⟨hrig, htwo, h.jobs, h.asleep⟩
      | wb => exact ⟨hrig, htwo, fun j hj => h.jobs j (h.rig.wb_jobs.2 j hj), h.asleep⟩
      | wait id =>
          obtain ⟨hq, hqueued, hwait⟩ := wait_eq hok
          refine ⟨hrig, htwo, ?_, ?_⟩
          · unfold Rig.jobs
            rw [hq]
            exact h.jobs
          · rw [hqueued, hwait]
            exact fun i hi => h.asleep i (List.mem_of_mem_filter hi)
  | exec => exact ⟨hrig, htwo, h.jobs, h.asleep⟩
  | outside f => exact ⟨hrig, htwo, h.jobs, h.asleep⟩

/-- A queue just started. -/
theorem Started.lively {q : Descq} (h : Started q) (h2 : 2 ≤ q.conf.rngsz) (w : World) :
    Lively (q.rig w) := by
  obtain ⟨-, hw, hp, -⟩ := h.spec
  refine ⟨(h.rigInv w).1, h2, ?_, fun _ hid => absurd hid List.not_mem_nil⟩
  show ∀ j ∈ (q.pendList ++ q.workList).map _, _
  rw [hp, hw]
  exact fun _ hj => absurd hj List.not_mem_nil

/-! ## What each step lowers -/

/-- A worker pass hands over what it takes off what is left. -/
theorem RigInv.worker_toGo {r : Rig} (h : RigInv r) :
    (r.step (.drv .worker)).toGo + (r.step (.drv .worker)).q.regs.handed.length
      = r.toGo + r.q.regs.handed.length := by
  have hring := h.credit.ring
  obtain ⟨k, hk⟩ := wrkProc_extends hring
  obtain ⟨hdone, hjobs⟩ := h.worker_jobs
  have havail := hring.avail
  have hka := hk.avail
  have hsplit := h.positions.1
  have hto : dist r.q.conf.rngsz r.exe (qdmaThreadWrkProc r.q).pidx
      = dist r.q.conf.rngsz r.exe r.q.pidx + k := by
    rw [hk.pidx]
    refine dist_adv_right h.exe_lt hring.pidx_lt ?_
    have := hring.one_le
    omega
  have hlen : (qdmaThreadWrkProc r.q).regs.handed.length = r.q.regs.handed.length + k := by
    rw [hk.handed, List.length_append, length_stretch, hk.pidx, dist_adv hring.pidx_lt]
    have := hring.one_le
    omega
  have hasked : (r.step (.drv .worker)).jobs
        ((r.step (.drv .worker)).q.doneCbs ++ (r.step (.drv .worker)).q.reqs)
      = r.jobs (r.q.doneCbs ++ r.q.reqs) := by
    have hconf : (r.step (.drv .worker)).q.conf = r.q.conf := hk.conf
    rw [Rig.jobs, List.map_append, Rig.jobs, List.map_append, hdone]
    rw [Rig.jobs, Rig.jobs] at hjobs
    rw [hjobs, hconf]
  have hle := (h.step (d := .drv .worker) trivial).1.handed_le
  rw [hasked] at hle
  unfold Rig.toGo Rig.left
  rw [hasked]
  have hq : (r.step (.drv .worker)).q = qdmaThreadWrkProc r.q := rfl
  have hsys : (r.step (.drv .worker)).sys.waiters = r.sys.waiters := rfl
  have hexe : (r.step (.drv .worker)).exe = r.exe := rfl
  rw [hq] at hle ⊢
  rw [hsys, hexe, hk.conf, hk.cidx, hk.wbCidx, hto]
  omega

/-- A report lowers it by what is reported. -/
theorem RigInv.hw_toGo {r : Rig} (h : RigInv r) {c : ℕ} (hok : r.Ok (.drv (.hw c))) :
    (r.step (.drv (.hw c))).toGo + dist r.q.conf.rngsz r.q.desc.wbCidx c = r.toGo := by
  have hring := h.credit.ring
  have hrep := h.reported
  have hback := h.positions.2
  have hrep' : dist r.q.conf.rngsz r.q.cidx c ≤ dist r.q.conf.rngsz r.q.cidx r.exe :=
    (h.hw hok).1.reported
  have hback' : dist r.q.conf.rngsz c r.exe
      = dist r.q.conf.rngsz r.q.cidx r.exe - dist r.q.conf.rngsz r.q.cidx c :=
    (h.hw hok).1.positions.2
  have hfrom := dist_add_dist hring.wb_lt hok.1 h.exe_lt hok.2
  have hle := hok.2
  show 4 * r.left + 3 * dist r.q.conf.rngsz r.exe r.q.pidx + 2 * dist r.q.conf.rngsz c r.exe
    + dist r.q.conf.rngsz r.q.cidx c + r.sys.waiters.length + _ = _
  unfold Rig.toGo
  omega

/-- A writeback lowers it by what was reported. -/
theorem RigInv.wb_toGo {r : Rig} (h : RigInv r) :
    (r.step (.drv .wb)).toGo + dist r.q.conf.rngsz r.q.cidx r.q.desc.wbCidx = r.toGo := by
  have hjobs := h.wb_jobs.1
  have hwait : (r.step (.drv .wb)).sys.waiters = r.sys.waiters := rfl
  have hexe : (r.step (.drv .wb)).exe = r.exe := rfl
  unfold Rig.toGo Rig.left
  rw [hjobs, hwait, hexe]
  rcases h.credit.wb_eq h.count.noWrap with ⟨h0, heq⟩ | ⟨-, heq⟩
  · have hq : (r.step (.drv .wb)).q = r.q := heq
    have hd : dist r.q.conf.rngsz r.q.cidx r.q.desc.wbCidx = 0 := h0
    rw [hq]
    omega
  · have hq : (r.step (.drv .wb)).q = r.q.settled := heq
    rw [hq]
    show 4 * (_ - r.q.regs.handed.length) + 3 * dist r.q.conf.rngsz r.exe r.q.pidx
      + 2 * dist r.q.conf.rngsz r.q.desc.wbCidx r.exe
      + dist r.q.conf.rngsz r.q.desc.wbCidx r.q.desc.wbCidx + _ + _ = _
    rw [dist_self]
    omega

/-- A move that is carried out lowers it by one. -/
theorem RigInv.exec_toGo {r : Rig} (h : RigInv r) (hok : r.Ok .exec) :
    (r.step .exec).toGo + 1 = r.toGo := by
  have hring := h.credit.ring
  have hne : ¬ r.exe = r.q.pidx := fun he => hok (he.trans hring.rung.symm)
  have hpos : 0 < dist r.q.conf.rngsz r.exe r.q.pidx := by
    have := dist_eq_zero h.exe_lt hring.pidx_lt
    omega
  have hto : dist r.q.conf.rngsz (adv r.q.conf.rngsz r.exe 1) r.q.pidx
      = dist r.q.conf.rngsz r.exe r.q.pidx - 1 := dist_adv_left h.exe_lt hring.pidx_lt hpos
  have hback' : dist r.q.conf.rngsz r.q.desc.wbCidx (adv r.q.conf.rngsz r.exe 1)
      = dist r.q.conf.rngsz r.q.cidx (adv r.q.conf.rngsz r.exe 1)
        - dist r.q.conf.rngsz r.q.cidx r.q.desc.wbCidx := (h.exec hok).1.positions.2
  have hfrom : dist r.q.conf.rngsz r.q.cidx (adv r.q.conf.rngsz r.exe 1)
      = dist r.q.conf.rngsz r.q.cidx r.exe + 1 := by
    have hlt : dist r.q.conf.rngsz r.q.cidx r.q.pidx < r.q.conf.rngsz :=
      dist_lt (Nat.zero_lt_of_lt h.exe_lt)
    have hrung := h.rung
    have hsplit := h.positions.1
    exact dist_adv_right hring.cidx_lt h.exe_lt (by omega)
  have hrep := h.reported
  have hback := h.positions.2
  show 4 * r.left + 3 * dist r.q.conf.rngsz (adv r.q.conf.rngsz r.exe 1) r.q.pidx
    + 2 * dist r.q.conf.rngsz r.q.desc.wbCidx (adv r.q.conf.rngsz r.exe 1)
    + dist r.q.conf.rngsz r.q.cidx r.q.desc.wbCidx + r.sys.waiters.length + 1 = _
  unfold Rig.toGo
  omega

/-- A caller that returns lowers it. -/
theorem wait_toGo {r : Rig} {id : ℕ} (hok : r.Ok (.drv (.wait id))) :
    (r.step (.drv (.wait id))).toGo < r.toGo := by
  obtain ⟨hq, -, hwait⟩ := wait_eq hok
  have hlt : (r.sys.waiters.filter (· ≠ id)).length < r.sys.waiters.length :=
    List.length_filter_lt_length_iff_exists.mpr ⟨id, hok.1, by simp⟩
  have hexe : (r.step (.drv (.wait id))).exe = r.exe := rfl
  unfold Rig.toGo Rig.left Rig.jobs
  rw [hq, hwait, hexe]
  omega

/-! ## When nothing is left to do -/

/-- With nothing on the lists all requests were handed back. -/
theorem RigInv.allBack {r : Rig} (h : RigInv r) (hreqs : r.q.reqs = []) : r.AllBack := by
  have horder := h.fifo.order
  rw [hreqs, List.append_nil, List.map_map] at horder
  exact ⟨horder, h.fifo.success⟩

/-- With no descriptor in flight there is room on the ring. -/
theorem Lively.room_of_even {r : Rig} (h : Lively r) (hat : r.q.cidx = r.q.pidx) :
    0 < r.q.avail := by
  have havail := h.rig.credit.ring.avail
  have htwo := h.two_le
  rw [hat, dist_self] at havail
  omega

/-- With no descriptor in flight no request waits for its end. -/
theorem Lively.pend_of_even {r : Rig} (h : Lively r) (hat : r.q.cidx = r.q.pidx) :
    r.q.pendList = [] := by
  by_contra hne
  obtain ⟨cb, rest, hp⟩ := List.exists_cons_of_ne_nil hne
  have hmem : cb ∈ r.q.pendList := hp ▸ List.mem_cons_self ..
  have hops := h.jobs _ (List.mem_map_of_mem (List.mem_append_left _ hmem))
  have hsgl : cb.req.sgl ≠ [] := by
    have hlen : 0 < (cb.req.moves r.q.conf.st).length := List.length_pos_iff.mpr hops
    rw [Request.length_moves] at hlen
    exact List.length_pos_iff.mp hlen
  have hheld := List.length_pos_of_mem (h.rig.fifo.inflight cb hmem hsgl)
  rw [length_held, hat, dist_self] at hheld
  exact Nat.lt_irrefl _ hheld

/-- **Where nothing can be done any more**, all is done. -/
theorem Lively.done_of_stuck {r : Rig} (h : Lively r) (hstuck : ∀ d, r.Quiet d → ¬ r.Works d) :
    r.Done := by
  have hring := h.rig.credit.ring
  have hexec : r.exe = r.q.regs.pidx := by
    by_contra hne
    exact hstuck .exec ⟨hne, id⟩ trivial
  have hhw : r.exe = r.q.desc.wbCidx := by
    by_contra hne
    exact hstuck (.drv (.hw r.exe)) ⟨⟨h.rig.exe_lt, Nat.le_refl _⟩, id⟩ hne
  have hwb : r.q.desc.wbCidx = r.q.cidx := by
    by_contra hne
    exact hstuck (.drv .wb) ⟨trivial, id⟩ hne
  -- the device is where the driver is, and so there is room on the ring
  have hat : r.q.cidx = r.q.pidx := by rw [← hwb, ← hhw, hexec, hring.rung]
  have hwork : r.q.workList = [] := by
    by_contra hne
    exact hstuck (.drv .worker) ⟨trivial, id⟩ ⟨hne, h.room_of_even hat⟩
  have hpend : r.q.pendList = [] := h.pend_of_even hat
  have hback : r.AllBack := h.rig.allBack (by rw [Descq.reqs, hpend, hwork, List.append_nil])
  refine ⟨hback, ?_⟩
  by_contra hne
  obtain ⟨id, rest, hw⟩ := List.exists_cons_of_ne_nil hne
  have hmem : id ∈ r.sys.waiters := hw ▸ List.mem_cons_self ..
  have hin := h.asleep id hmem
  rw [← hback.finished] at hin
  obtain ⟨f, hf, hid⟩ := List.mem_map.mp hin
  refine hstuck (.drv (.wait id)) ⟨⟨hmem, ?_⟩, fun hs => hs⟩ trivial
  unfold Descq.doneCb
  rw [Option.isSome_map, List.find?_isSome]
  exact ⟨f, hf, decide_eq_true hid⟩

/-- **The work of a queue runs out.** -/
theorem lively_law : Descent.Law Rig.step Rig.Quiet Rig.Works Lively Rig.Done Rig.toGo where
  keeps _ _ h hok := h.step hok.1
  lowers r d h hok hw := by
    have hring := h.rig.credit.ring
    cases d with
    | drv l =>
        cases l with
        | submit req mapped => exact absurd trivial hok.2
        | worker =>
            have hgo := h.rig.worker_toGo
            have hposts := wrkProc_posts h.rig.credit h.rig.fifo h.rig.nonempty hw.1 hw.2
            have hq : (r.step (.drv .worker)).q = qdmaThreadWrkProc r.q := rfl
            rw [hq] at hgo
            omega
        | hw c =>
            have hgo := h.rig.hw_toGo hok.1
            have hne : ¬ dist r.q.conf.rngsz r.q.desc.wbCidx c = 0 := fun h0 =>
              hw ((dist_eq_zero hring.wb_lt hok.1.1).mp h0).symm
            omega
        | wb =>
            have hgo := h.rig.wb_toGo
            have hne : ¬ dist r.q.conf.rngsz r.q.cidx r.q.desc.wbCidx = 0 := fun h0 =>
              hw ((dist_eq_zero hring.cidx_lt hring.wb_lt).mp h0).symm
            omega
        | wait id => exact wait_toGo hok.1
    | exec => exact (h.rig.exec_toGo hok.1).symm ▸ Nat.lt_succ_self _
    | outside f => exact hw.elim
  idle r d h hok hw := by
    cases d with
    | drv l =>
        cases l with
        | submit req mapped => exact absurd trivial hok.2
        | worker =>
            have hq : (r.step (.drv .worker)).q = r.q := wrkProc_idle h.rig.credit.ring hw
            have hgo := h.rig.worker_toGo
            rw [hq] at hgo
            omega
        | hw c => exact Nat.le.intro (h.rig.hw_toGo hok.1)
        | wb => exact Nat.le.intro h.rig.wb_toGo
        | wait id => exact absurd trivial hw
    | exec => exact absurd trivial hw
    | outside f => exact Nat.le_refl _
  stuck _ h hstuck := h.done_of_stuck hstuck

/-- **Requests get done.**  From any state a queue can come to, without new requests, and in
whatever order the callers, the worker, the device and the writebacks go on: no more steps than
there is to do get something done, and a state in which none can has all requests handed back, in
the order they were queued, and all callers returned.  Such a state can always be reached. -/
theorem requests_get_done {q : Descq} (h : Started q) (h2 : 2 ≤ q.conf.rngsz) {w : World}
    {ds : List Deed} {r : Rig} (hrun : Run Rig.step Rig.Ok (q.rig w) ds r) :
    (∀ ds' r', Run Rig.step Rig.Quiet r ds' r' →
      Descent.worked Rig.step Rig.Works r ds' + r'.toGo ≤ r.toGo ∧
        ((∀ d, r'.Quiet d → ¬ r'.Works d) → r'.Done)) ∧
    ∃ ds' r', Run Rig.step Rig.Quiet r ds' r' ∧ ds'.length ≤ r.toGo ∧ r'.Done := by
  have hlive : Lively r := hrun.invariant (h.lively h2 w) (fun _ _ hs hok => hs.step hok)
  refine ⟨fun ds' r' hrun' => ⟨lively_law.worked_le hlive hrun', ?_⟩, lively_law.reach hlive⟩
  exact lively_law.final_of_stuck hlive hrun'

/-- Three requests that were submitted, before anything is done about them. -/
def threeWaiting : Rig :=
  (List.replicate 3 (Deed.drv (.submit (writeReq 8) true))).foldl Rig.step
    ((startedSys false 4).q.rig numbered)

theorem requests_get_done_three :
    (∃ ds r, Run Rig.step Rig.Quiet threeWaiting ds r ∧ ds.length ≤ 15 ∧ r.Done) := by
  have hrun : Run Rig.step Rig.Ok ((startedSys false 4).q.rig numbered)
      (List.replicate 3 (Deed.drv (.submit (writeReq 8) true))) threeWaiting :=
    Run.of_admits _ (by decide +kernel)
  obtain ⟨ds, r, hrun', hlen, hdone⟩ :=
    (requests_get_done (started_startedSys false) (by decide +kernel) hrun).2
  exact ⟨ds, r, hrun', hlen.trans (by decide +kernel), hdone⟩

end Qdma
