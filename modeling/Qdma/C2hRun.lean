/-
# Runs of an ST C2H queue

The queue with its device and its callers.  The device writes packets to posted buffers
and entries to the completion ring (`dma`), publishes its position (`publish`), and both
may run ahead of the driver; callers submit reads and wait for them; completions are
serviced with any budget.  Every step is one lock-protected section of the code, in any
order.

`RxInv` is the law of such a queue; `rxInv_run` carries it through every run.
-/
import Qdma.Servicing
import Qdma.Exec

namespace Qdma

open RingIndex Exec

/-! ## The system -/

/-- A queue with its device and its callers: the callers between the two locked sections
of a submission, those waiting, and the calls that have returned; the next buffer and the
next entry the device uses, the colour of that entry, and the entries written so far. -/
structure Rx where
  q : Descq
  nreq : ℕ := 0
  parked : List SgtReqCb := []
  waiters : List ℕ := []
  returned : List (ℕ × ℤ) := []
  bufPidx : ℕ := 0
  wrbPidx : ℕ := 0
  color : Bool := true
  sent : List Cmpl := []

/-- The steps of a run. -/
inductive RxLabel where
  | submit (req : Request)
  | pend (id : ℕ)
  | wait (id : ℕ)
  | packetRead (req : Request)
  | service (budget : ℤ) (fill : ℕ → FillOutcome)
  | dma (word : ℕ) (payload : List UInt8)
  | publish (pidx : ℕ)

/-- The call for request `id` returns `rv`. -/
def Rx.ret (s : Rx) (id : ℕ) (rv : ℤ) : Rx := { s with returned := s.returned ++ [(id, rv)] }

/-- `qdma_request_submit` up to the end of its first locked section. -/
def Rx.submit (s : Rx) (req : Request) : Rx :=
  let id := s.nreq
  if req.write then { s with nreq := id + 1 }.ret id einval
  else
    let (q, cb) := submitStC2hRead s.q id req
    let s := { s with q := q, nreq := id + 1 }
    if cb.left = 0 then s.ret id req.count else { s with parked := s.parked ++ [cb] }

/-- The second locked section, for one of the callers before it. -/
def Rx.pendCb (s : Rx) (cb : SgtReqCb) : Rx :=
  let (q, rv) := submitStC2hPend s.q cb
  let s := { s with q := q, parked := s.parked.filter (fun c => c.id ≠ cb.id) }
  match rv with
  | some rv => s.ret cb.id rv
  | none => if cb.req.fpDone then s.ret cb.id 0 else { s with waiters := s.waiters ++ [cb.id] }

/-- The end of a wait, and with it of the call. -/
def Rx.wait (s : Rx) (id : ℕ) : Rx :=
  let (q, rv) := qdmaRequestWaitForCmpl s.q id
  { s with q := q, waiters := s.waiters.filter (· ≠ id) }.ret id rv

/-- `qdma_queue_packet_read`. -/
def Rx.packetRead (s : Rx) (req : Request) : Rx :=
  let (q, rv) := qdmaQueuePacketRead s.q s.nreq req
  { s with q := q, nreq := s.nreq + 1 }.ret s.nreq rv

/-- A page after the device has written `bytes` to it. -/
def landPage (page : ℕ → UInt8) (bytes : List UInt8) : ℕ → UInt8 := fun k => bytes.getD k (page k)

/-- The device writes `bs` to the buffers from `i` on. -/
def Descq.land (d : Descq) (i : ℕ) (bs : List Buf) : Descq :=
  d.withBufs (fill d.conf.rngsz d.flq.sdesc i
      (bs.map (fun b x => { x with page := landPage x.page b.bytes }))) d.flq.sdescInfo d.avail

/-- The device writes the first word of the entry at byte offset `o`. -/
def Descq.setWrb (d : Descq) (o word : ℕ) : Descq :=
  { d with descWrb := { d.descWrb with mem := Function.update d.descWrb.mem o word } }

/-- The device writes a packet and its completion entry. -/
def Rx.dma (s : Rx) (word : ℕ) (payload : List UInt8) : Rx :=
  let c : Cmpl := { word := word, payload := payload, seq := s.sent.length + 1 }
  let bs := c.bufs s.q.conf.c2hBufsz
  let wrbPidx := adv s.q.conf.rngszWrb s.wrbPidx 1
  { s with
    q := (s.q.land s.bufPidx bs).setWrb (s.wrbPidx * s.q.wbEntryLen) word
    bufPidx := adv s.q.conf.rngsz s.bufPidx bs.length
    wrbPidx := wrbPidx
    color := if wrbPidx = 0 then !s.color else s.color
    sent := s.sent ++ [c] }

/-- The device publishes its position in the completion ring. -/
def Rx.publish (s : Rx) (pidx : ℕ) : Rx :=
  { s with q := { s.q with descWrb := { s.q.descWrb with wbPidx := pidx } } }

/-- One step of the system. -/
def Rx.step (s : Rx) : RxLabel → Rx
  | .submit req => s.submit req
  | .pend id =>
      match s.parked.find? (fun c => c.id = id) with
      | some cb => s.pendCb cb
      | none => s
  | .wait id => s.wait id
  | .packetRead req => s.packetRead req
  | .service budget fill => { s with q := (descqProcessCompletionStC2h s.q budget fill).1 }
  | .dma word payload => s.dma word payload
  | .publish pidx => s.publish pidx

/-- Only a parked request is put on `pend_list`. -/
theorem step_pend_cases (s : Rx) (id : ℕ) : s.step (.pend id) = s ∨
    ∃ cb ∈ s.parked, cb.id = id ∧ s.step (.pend id) = s.pendCb cb := by
  simp only [Rx.step]
  cases hf : s.parked.find? (fun c => c.id = id) with
  | none => exact .inl rfl
  | some cb => exact .inr ⟨cb, List.mem_of_find?_eq_some hf, by simpa using List.find?_some hf, rfl⟩

/-- The device writes entries without error, in the colour of their lap, while the ring
has room behind the last CIDX doorbell; an entry with a packet gives its length, and the
packet fits the buffers posted; an entry without one is written only if these are enabled.
It publishes positions between the last one and its own.  Only a sleeping caller stops
waiting. -/
def RxLegal (s : Rx) : RxLabel → Prop
  | .dma word payload =>
      word.testBit 0 = false ∧ word.testBit 1 = s.color ∧ word.testBit 2 = false ∧
      dist s.q.conf.rngszWrb s.q.regs.wrbCidx s.wrbPidx + 1 < s.q.conf.rngszWrb ∧
      (word.testBit 3 = true ∧ (word >>> 4) &&& mC2hWbEntryLength = payload.length ∧
          pktNr s.q.conf.c2hBufsz payload.length
            ≤ dist s.q.conf.rngsz s.bufPidx s.q.regs.pidx ∨
        word.testBit 3 = false ∧ s.q.conf.cmplUddEn = true ∧ payload = [])
  | .publish pidx => pidx < s.q.conf.rngszWrb ∧
      dist s.q.conf.rngszWrb s.q.descWrb.wbPidx pidx
        ≤ dist s.q.conf.rngszWrb s.q.descWrb.wbPidx s.wrbPidx
  | .wait id => id ∈ s.waiters
  | _ => True

instance (s : Rx) (l : RxLabel) : Decidable (RxLegal s l) := by
  cases l <;> unfold RxLegal <;> infer_instance

/-! ## Sequence numbers of the buffers -/

/-- All buffers of an entry carry its number. -/
theorem seq_of_mem_bufs {full : ℕ} {c : Cmpl} {b : Buf} (h : b ∈ c.bufs full) :
    b.seq = c.seq := by
  unfold Cmpl.bufs at h
  split_ifs at h
  · obtain ⟨j, hj, rfl⟩ := List.mem_iff_getElem.mp h
    simp [packetBufs, getElem_cutBufs]
  · cases h

/-- The buffers come in the order of their entries. -/
theorem allBufs_sorted (full : ℕ) {sent : List Cmpl}
    (h : ∀ k (hk : k < sent.length), sent[k].seq = k + 1) :
    (allBufs full sent).Pairwise (fun a b => a.seq ≤ b.seq) := by
  unfold allBufs
  rw [List.pairwise_flatMap]
  constructor
  · intro c _
    rw [List.pairwise_iff_getElem]
    intro i j hi hj _
    rw [seq_of_mem_bufs (List.getElem_mem hi), seq_of_mem_bufs (List.getElem_mem hj)]
  · rw [List.pairwise_iff_getElem]
    intro i j hi hj hij x hx y hy
    rw [seq_of_mem_bufs hx, seq_of_mem_bufs hy, h i hi, h j hj]
    omega

/-- `cidx_wrb_pend` only moves forward. -/
theorem lastSeq_mono {bs : List Buf} (h : bs.Pairwise (fun a b => a.seq ≤ b.seq)) (m k : ℕ) :
    lastSeq 0 (bs.take m) ≤ lastSeq 0 (bs.take (m + k)) := by
  rw [List.take_add, lastSeq_append]
  rw [← List.take_append_drop m bs, List.pairwise_append] at h
  rcases lastSeq_mem (lastSeq 0 (bs.take m)) ((bs.drop m).take k) with h1 | ⟨b, hb, h1⟩
  · omega
  · rcases lastSeq_mem 0 (bs.take m) with h2 | ⟨a, ha, h2⟩
    · omega
    · have := h.2.2 a ha b (List.mem_of_mem_take hb)
      omega

/-- It does not overtake the entries gone through. -/
theorem lastSeq_le (full : ℕ) {sent : List Cmpl}
    (h : ∀ k (hk : k < sent.length), sent[k].seq = k + 1) (r m : ℕ) :
    lastSeq 0 ((allBufs full (sent.take r)).take m) ≤ r := by
  rcases lastSeq_mem 0 ((allBufs full (sent.take r)).take m) with h1 | ⟨b, hb, h1⟩
  · omega
  · obtain ⟨c, hc, hbc⟩ := List.mem_flatMap.mp (List.mem_of_mem_take hb)
    obtain ⟨k, hk, rfl⟩ := List.mem_iff_getElem.mp hc
    rw [seq_of_mem_bufs hbc, List.getElem_take, h k (by rw [List.length_take] at hk; omega)] at h1
    rw [List.length_take] at hk
    omega

/-! ## The invariant -/

/-- **The law of an ST C2H queue with its device.**  The driver has gone through `r` of the
entries written, and `pend` of the buffers received are read. -/
structure RxInv (s : Rx) (r pend : ℕ) : Prop where
  serving : Serving s.q s.sent r pend pend
  pidx : s.q.pidx = (allBufs s.q.conf.c2hBufsz (s.sent.take r)).length % s.q.conf.rngsz
  bell : s.q.regs.pidx = (pend + s.q.conf.rngsz - 1) % s.q.conf.rngsz
  entryLen : 0 < s.q.wbEntryLen
  bufPidx : s.bufPidx = (allBufs s.q.conf.c2hBufsz s.sent).length % s.q.conf.rngsz
  wrbPidx : s.wrbPidx = s.sent.length % s.q.conf.rngszWrb
  color : s.color = lap s.q.conf.rngszWrb s.sent.length
  published : ∃ w, s.q.descWrb.wbPidx = w % s.q.conf.rngszWrb ∧ r ≤ w ∧ w ≤ s.sent.length
  wrbBell : ∃ v, s.q.regs.wrbCidx = v % s.q.conf.rngszWrb ∧
    v ≤ lastSeq 0 ((allBufs s.q.conf.c2hBufsz s.sent).take pend) ∧
    s.sent.length < v + s.q.conf.rngszWrb

/-- The buffers read are among those received. -/
theorem RxInv.take_pend {s : Rx} {r pend : ℕ} (h : RxInv s r pend) :
    (allBufs s.q.conf.c2hBufsz s.sent).take pend
      = (allBufs s.q.conf.c2hBufsz (s.sent.take r)).take pend := by
  obtain ⟨rest, hrest⟩ := allBufs_isPrefix s.q.conf.c2hBufsz s.sent r
  rw [← hrest, List.take_append_of_le_length h.serving.rx.fl.pend_le]

/-- The device is less than a lap ahead of the driver. -/
theorem RxInv.lt_lap {s : Rx} {r pend : ℕ} (h : RxInv s r pend) :
    s.sent.length < r + s.q.conf.rngszWrb := by
  obtain ⟨v, _, hv, hlt⟩ := h.wrbBell
  rw [h.take_pend] at hv
  have := lastSeq_le s.q.conf.c2hBufsz h.serving.ring.seq r pend
  omega

/-- The device side of a system. -/
structure SameDevice (s s' : Rx) : Prop where
  bufPidx : s'.bufPidx = s.bufPidx
  wrbPidx : s'.wrbPidx = s.wrbPidx
  color : s'.color = s.color
  sent : s'.sent = s.sent

/-- A step of the driver that goes through entries, reads buffers and rings for them. -/
theorem RxInv.driver {s s' : Rx} {r pend r' k : ℕ} (h : RxInv s r pend) (hd : SameDevice s s')
    (hserv : Serving s'.q s.sent r' (pend + k) (pend + k))
    (hpidx : s'.q.pidx
      = (allBufs s'.q.conf.c2hBufsz (s.sent.take r')).length % s'.q.conf.rngsz)
    (hbell : s'.q.regs.pidx = (pend + k + s'.q.conf.rngsz - 1) % s'.q.conf.rngsz)
    (hconf : s'.q.conf = s.q.conf) (hlen : s'.q.wbEntryLen = s.q.wbEntryLen)
    (hwb : s'.q.descWrb = s.q.descWrb)
    (hr : ∀ w, s.q.descWrb.wbPidx = w % s.q.conf.rngszWrb → r ≤ w → w ≤ s.sent.length → r' ≤ w)
    (hwrb : s'.q.regs.wrbCidx = s.q.regs.wrbCidx ∨ s'.q.regs.wrbCidx = s'.q.cidxWrbPend) :
    RxInv s' r' (pend + k) := by
  obtain ⟨w, hw, hrw, hws⟩ := h.published
  obtain ⟨v, hv, hvle, hvlt⟩ := h.wrbBell
  have hmono := lastSeq_mono (allBufs_sorted s.q.conf.c2hBufsz h.serving.ring.seq) pend k
  refine ⟨?_, ?_, hbell, ?_, ?_, ?_, ?_, ⟨w, ?_, hr w hw hrw hws, ?_⟩, ?_⟩
  · rw [hd.sent]; exact hserv
  · rw [hd.sent]; exact hpidx
  · rw [hlen]; exact h.entryLen
  · rw [hd.bufPidx, hd.sent, hconf]; exact h.bufPidx
  · rw [hd.wrbPidx, hd.sent, hconf]; exact h.wrbPidx
  · rw [hd.color, hd.sent, hconf]; exact h.color
  · rw [hwb, hconf]; exact hw
  · rw [hd.sent]; exact hws
  · rw [hd.sent, hconf]
    rcases hwrb with heq | heq
    · exact ⟨v, by rw [heq]; exact hv, by omega, hvlt⟩
    · -- the new doorbell is `cidx_wrb_pend`
      refine ⟨_, ?_, le_rfl, by omega⟩
      obtain ⟨rest, hrest⟩ := allBufs_isPrefix s.q.conf.c2hBufsz s.sent r'
      have hle := hserv.rx.fl.pend_le
      rw [hconf] at hle
      rw [heq, hserv.rx.last, hconf, ← hrest, List.take_append_of_le_length hle]

/-! ## The steps of the driver -/

/-- What reading leaves alone keeps the completion ring and the buffers that landed. -/
theorem Serving.sameDev {q q' : Descq} {sent : List Cmpl} {r base pend base' k : ℕ}
    (h : Serving q sent r base pend) (hs : SameDev q q') (hb : base ≤ base')
    (hrx : Receiving q' base' (pend + k) (allBufs q.conf.c2hBufsz (sent.take r))) :
    Serving q' sent r base' (pend + k) := by
  obtain ⟨-, hring, hland, hroom⟩ := h
  refine ⟨?_, hring.congr hs.conf hs.cidxWrb hs.descWrbCur hs.wbEntryLen hs.color
    (congrArg WrbRing.mem hs.descWrb), ?_, ?_⟩
  · rw [hs.conf]
    exact hrx
  · rw [hs.conf]
    intro j hj hP
    rw [hs.page]
    exact hland j hj hP
  · rw [hs.conf]
    omega

/-- A read outside of servicing, with refill and doorbells. -/
theorem RxInv.read {s s' : Rx} {r pend : ℕ} (h : RxInv s r pend) (cb : SgtReqCb)
    (hd : SameDevice s s') (hq : s'.q = (descqStC2hRead s.q cb true true).1) :
    ∃ k log, RxInv s' r (pend + k) ∧ ReadDone s.q cb true true pend pend
      (allBufs s.q.conf.c2hBufsz (s.sent.take r)) k log s'.q
      (descqStC2hRead s.q cb true true).2.1 := by
  obtain ⟨k, log, hread⟩ := h.serving.rx.read h.pidx cb true true (fun _ => rfl)
  rw [← hq] at hread
  have hs := hread.same
  refine ⟨k, log, h.driver hd (h.serving.sameDev hs (by simp) hread.rx) ?_ ?_ hs.conf
    hs.wbEntryLen hs.descWrb (fun _ _ hrw _ => hrw) ?_, hread⟩
  · rw [hs.conf, hs.pidx]
    exact h.pidx
  · rw [hs.conf]
    rcases hread.regs with ⟨heq, hk⟩ | hregs
    · rw [heq, hk]
      exact h.bell
    · exact hregs.1
  · rcases hread.regs with ⟨heq, _⟩ | hregs
    · exact .inl (by rw [heq])
    · exact .inr hregs.2

/-- The lists of requests and the callers are no part of the law. -/
theorem RxInv.congr {s s' : Rx} {r pend : ℕ} (h : RxInv s r pend) (hd : SameDevice s s')
    (hs : SameDev s.q s'.q) (hrx : Receiving s'.q pend pend
      (allBufs s.q.conf.c2hBufsz (s.sent.take r)))
    (hbell : s'.q.regs.pidx = s.q.regs.pidx)
    (hwrb : s'.q.regs.wrbCidx = s.q.regs.wrbCidx ∨ s'.q.regs.wrbCidx = s'.q.cidxWrbPend) :
    RxInv s' r pend := by
  refine h.driver (k := 0) hd (h.serving.sameDev hs le_rfl hrx) ?_ ?_ hs.conf hs.wbEntryLen
    hs.descWrb (fun _ _ hrw _ => hrw) hwrb
  · rw [hs.conf, hs.pidx]
    exact h.pidx
  · rw [hs.conf, hbell]
    exact h.bell

/-- A step of the driver that leaves the queue alone. -/
theorem RxInv.same {s s' : Rx} {r pend : ℕ} (h : RxInv s r pend) (hd : SameDevice s s')
    (hq : s'.q = s.q) : RxInv s' r pend :=
  h.congr hd (by rw [hq]; exact SameDev.refl _) (by rw [hq]; exact h.serving.rx) (by rw [hq])
    (.inl (by rw [hq]))

theorem submit_rx (s : Rx) (req : Request) :
    SameDevice s (s.submit req) ∧ (s.submit req).q = if req.write then s.q
      else (descqStC2hRead s.q (req.newC2hCb s.nreq) true true).1 := by
  unfold Rx.submit submitStC2hRead
  simp only
  split_ifs <;> exact ⟨⟨rfl, rfl, rfl, rfl⟩, rfl⟩

theorem RxInv.submit {s : Rx} {r pend : ℕ} (h : RxInv s r pend) (req : Request) :
    ∃ k, RxInv (s.submit req) r (pend + k) := by
  obtain ⟨hd, hq⟩ := submit_rx s req
  split_ifs at hq
  · exact ⟨0, h.same hd hq⟩
  · obtain ⟨k, _, hinv, _⟩ := h.read _ hd hq
    exact ⟨k, hinv⟩

theorem packetRead_rx (s : Rx) (req : Request) :
    SameDevice s (s.packetRead req) ∧ ((s.packetRead req).q = s.q ∨ (s.packetRead req).q
      = (descqStC2hRead s.q { id := s.nreq, req := req } true true).1) := by
  unfold Rx.packetRead qdmaQueuePacketRead
  simp only
  split_ifs
  · exact ⟨⟨rfl, rfl, rfl, rfl⟩, .inl rfl⟩
  · exact ⟨⟨rfl, rfl, rfl, rfl⟩, .inr rfl⟩

theorem RxInv.packetRead {s : Rx} {r pend : ℕ} (h : RxInv s r pend) (req : Request) :
    ∃ k, RxInv (s.packetRead req) r (pend + k) := by
  obtain ⟨hd, hq | hq⟩ := packetRead_rx s req
  · exact ⟨0, h.same hd hq⟩
  · obtain ⟨k, _, hinv, _⟩ := h.read _ hd hq
    exact ⟨k, hinv⟩

theorem pendCb_rx (s : Rx) (cb : SgtReqCb) :
    SameDevice s (s.pendCb cb) ∧
      (s.pendCb cb).parked = s.parked.filter (fun c => c.id ≠ cb.id) ∧
      ((s.pendCb cb).q = s.q ∨ (s.pendCb cb).q = descqWrbCidxUpdate
        { s.q with pendList := s.q.pendList ++ [cb] } s.q.cidxWrbPend) := by
  have hq : (s.pendCb cb).q = (submitStC2hPend s.q cb).1 := by
    unfold Rx.pendCb
    simp only
    split <;> [rfl; (split_ifs <;> rfl)]
  refine ⟨?_, ?_, ?_⟩
  · unfold Rx.pendCb
    simp only
    split
    · exact ⟨rfl, rfl, rfl, rfl⟩
    · split_ifs <;> exact ⟨rfl, rfl, rfl, rfl⟩
  · unfold Rx.pendCb
    simp only
    split <;> [rfl; (split_ifs <;> rfl)]
  · rw [hq]
    unfold submitStC2hPend
    split_ifs
    · exact .inr rfl
    · exact .inl rfl

theorem RxInv.pendCb {s : Rx} {r pend : ℕ} (h : RxInv s r pend) (cb : SgtReqCb) :
    RxInv (s.pendCb cb) r pend := by
  obtain ⟨hd, _, hq | hq⟩ := pendCb_rx s cb
  · exact h.same hd hq
  · refine h.congr hd ?_ ?_ ?_ (.inr ?_) <;> rw [hq]
    · exact ⟨rfl, rfl, rfl, rfl, rfl, rfl, rfl, rfl, rfl, fun _ => rfl⟩
    · exact h.serving.rx.congr rfl rfl rfl rfl rfl
    · rfl
    · rfl

theorem wait_rx (s : Rx) (id : ℕ) :
    SameDevice s (s.wait id) ∧ ((s.wait id).q = s.q ∨ (s.wait id).q = s.q.listDel id) := by
  refine ⟨⟨rfl, rfl, rfl, rfl⟩, ?_⟩
  show (qdmaRequestWaitForCmpl s.q id).1 = s.q ∨
    (qdmaRequestWaitForCmpl s.q id).1 = s.q.listDel id
  unfold qdmaRequestWaitForCmpl
  cases s.q.doneCb id with
  | none => exact .inr rfl
  | some cb => exact .inl rfl

theorem RxInv.wait {s : Rx} {r pend : ℕ} (h : RxInv s r pend) (id : ℕ) :
    RxInv (s.wait id) r pend := by
  obtain ⟨hd, hq | hq⟩ := wait_rx s id
  · exact h.same hd hq
  · refine h.congr hd ?_ ?_ ?_ (.inl ?_) <;> rw [hq]
    · exact ⟨rfl, rfl, rfl, rfl, rfl, rfl, rfl, rfl, rfl, fun _ => rfl⟩
    · exact h.serving.rx.congr rfl rfl rfl rfl rfl
    · rfl
    · rfl

/-- The entries a service call is to go through. -/
def Rx.due (s : Rx) (budget : ℤ) : ℕ :=
  procBudget budget (dist s.q.conf.rngszWrb s.q.cidxWrb s.q.descWrb.wbPidx)

/-- What a service call does: nothing, or it goes through the entries due, and then serves
the pending requests. -/
theorem RxInv.service {s : Rx} {r pend : ℕ} (h : RxInv s r pend) (budget : ℤ)
    (fill : ℕ → FillOutcome) :
    (s.step (.service budget fill)).q = s.q ∨
      ∃ k log q1, RxInv (s.step (.service budget fill)) (r + s.due budget) (pend + k) ∧
        0 < s.due budget ∧ Serving q1 s.sent (r + s.due budget) pend pend ∧ SameReqs s.q q1 ∧
        Serviced q1 s.sent (r + s.due budget) pend k log
          (s.step (.service budget fill)).q := by
  obtain ⟨w, hw, hrw, hws⟩ := h.published
  have hlap := h.lt_lap
  have hdue : s.due budget = procBudget budget (w - r) := by
    unfold Rx.due
    rw [h.serving.ring.cidx, hw, dist_mod hrw (by omega)]
  rcases h.serving.service_eq h.pidx hw hrw hws (by omega) budget fill with heq | hcase
  · exact .inl heq
  · right
    obtain ⟨q1, hpos, hserv, hsame, heq⟩ := hcase
    rw [← hdue] at hpos hserv heq
    obtain ⟨k, log, hdone⟩ := hserv.procEnd (Nat.ne_of_gt hpos) s.q.descWrb.wbPidx fill
      (by rw [hsame.regs, hsame.conf]; exact h.bell)
    rw [hsame.conf, ← heq] at hdone
    have hconf : (s.step (.service budget fill)).q.conf = s.q.conf :=
      hdone.conf.trans hsame.conf
    refine ⟨k, log, q1, h.driver ⟨rfl, rfl, rfl, rfl⟩ hdone.serving hdone.pidx hdone.bell hconf
      (hdone.wbEntryLen.trans hsame.wbEntryLen) (hdone.descWrb.trans hsame.descWrb) ?_
      (.inr hdone.wrbBell), hpos, hserv, hsame, hdone⟩
    intro w' hw' hrw' hws'
    -- the position published is the only one in this lap
    have heqw : w' = w := by
      have h1 := dist_mod (n := s.q.conf.rngszWrb) hrw' (by omega)
      have h2 := dist_mod (n := s.q.conf.rngszWrb) hrw (by omega)
      rw [← hw'] at h1
      rw [← hw] at h2
      omega
    rw [heqw, hdue]
    unfold procBudget
    split_ifs <;> omega

/-! ## The steps of the device -/

theorem RxInv.publish {s : Rx} {r pend : ℕ} (h : RxInv s r pend) {p : ℕ}
    (hp : p < s.q.conf.rngszWrb)
    (hle : dist s.q.conf.rngszWrb s.q.descWrb.wbPidx p
      ≤ dist s.q.conf.rngszWrb s.q.descWrb.wbPidx s.wrbPidx) :
    RxInv (s.publish p) r pend := by
  obtain ⟨w, hw, hrw, hws⟩ := h.published
  have hlap := h.lt_lap
  obtain ⟨⟨hrx, hring, hland, hroom⟩, h2, h3, h4, h5, h6, h7, -, h9⟩ := h
  rw [h6, hw] at hle
  obtain ⟨c, hc, hwc, hcs⟩ := exists_count_between hp hws (by omega) hle
  exact ⟨⟨hrx.congr rfl rfl rfl rfl rfl, hring.congr rfl rfl rfl rfl rfl rfl, hland, hroom⟩, h2, h3,
    h4, h5, h6, h7, ⟨c, hc, hrw.trans hwc, hcs⟩, h9⟩

/-- A page holds what was written to it. -/
theorem pageBytes_landPage (page : ℕ → UInt8) (bytes : List UInt8) :
    pageBytes (landPage page bytes) 0 bytes.length = bytes := by
  apply List.ext_getElem
  · simp [pageBytes]
  · intro j h1 h2
    simp [pageBytes, landPage, List.getD, h2]

/-- What landing does to the buffers. -/
structure LandSpec (n : ℕ) (s s' : ℕ → FlSdesc) (T : ℕ) (bs : List Buf) : Prop where
  len : ∀ i, (s' i).len = (s i).len
  offset : ∀ i, (s' i).offset = (s i).offset
  old : ∀ j, T ≤ j + n → j < T → T + bs.length ≤ j + n → s' (j % n) = s (j % n)
  new : ∀ j (hj : j < bs.length),
    pageBytes (s' ((T + j) % n)).page 0 bs[j].bytes.length = bs[j].bytes

theorem land_spec {n : ℕ} (hn : 0 < n) (s : ℕ → FlSdesc) (T : ℕ) (bs : List Buf)
    (hbs : bs.length ≤ n) : LandSpec n s (fill n s (T % n)
      (bs.map (fun b x => { x with page := landPage x.page b.bytes }))) T bs := by
  set ws : List (FlSdesc → FlSdesc) :=
    bs.map (fun b x => { x with page := landPage x.page b.bytes }) with hws
  have hlen : ws.length = bs.length := by rw [hws, List.length_map]
  have hTn : T % n < n := Nat.mod_lt _ hn
  refine ⟨fun i => ?_, fun i => ?_, fun j h1 h2 h3 => ?_, fun j hj => ?_⟩
  · refine fill_inv FlSdesc.len s ws (fun w hw x => ?_) i
    obtain ⟨b, _, rfl⟩ := List.mem_map.mp hw
    rfl
  · refine fill_inv FlSdesc.offset s ws (fun w hw x => ?_) i
    obtain ⟨b, _, rfl⟩ := List.mem_map.mp hw
    rfl
  · have hadv : j % n = adv n (T % n) (j + n - T) := by
      rw [adv_mod, Nat.add_sub_cancel' h1, Nat.add_mod_right]
    rw [hadv]
    exact fill_old s hTn ws (by omega) (by omega)
  · have hjw : j < ws.length := by omega
    have hget : ws[j] = fun x => { x with page := landPage x.page bs[j].bytes } := by
      simp [hws]
    rw [← adv_mod, fill_new s hTn ws (by omega) (by omega), hget]
    exact pageBytes_landPage _ _

/-- What the device may write next. -/
theorem RxInv.room {s : Rx} {r pend : ℕ} (h : RxInv s r pend) {word : ℕ} {payload : List UInt8}
    {c : Cmpl} (hc : c = { word := word, payload := payload, seq := s.sent.length + 1 })
    (hl : RxLegal s (.dma word payload)) :
    (allBufs s.q.conf.c2hBufsz s.sent).length + (c.bufs s.q.conf.c2hBufsz).length
        < pend + s.q.conf.rngsz ∧
      s.sent.length + 1 < r + s.q.conf.rngszWrb ∧
      c.Good s.q.conf (lap s.q.conf.rngszWrb s.sent.length) := by
  obtain ⟨hf, hcol, herr, hring, hcase⟩ := hl
  have hroom := h.serving.room
  have hpp := h.serving.rx.fl.pend_le
  have hpre := (allBufs_isPrefix s.q.conf.c2hBufsz s.sent r).length_le
  obtain ⟨v, hv, hvle, hvlt⟩ := h.wrbBell
  have hn := h.serving.rx.sizes.pos
  have hB : 0 < s.q.conf.c2hBufsz := by
    rw [h.serving.rx.sizes.bufsz]
    exact Nat.two_pow_pos _
  refine ⟨?_, ?_, ?_⟩
  · rcases hcase with ⟨h3, _, hfit⟩ | ⟨h3, _, _⟩
    · have hlen : (c.bufs s.q.conf.c2hBufsz).length = pktNr s.q.conf.c2hBufsz payload.length := by
        rw [hc, Cmpl.bufs, if_pos h3, length_packetBufs hB]
      rw [h.bufPidx, h.bell, dist_mod (by omega) (by omega)] at hfit
      omega
    · have hlen : (c.bufs s.q.conf.c2hBufsz).length = 0 := by
        rw [hc, Cmpl.bufs, if_neg (by rw [h3]; decide)]
        rfl
      omega
  · -- the doorbell's index is at most what the driver has gone through
    rw [h.take_pend] at hvle
    have hvr := lastSeq_le s.q.conf.c2hBufsz h.serving.ring.seq r pend
    have hrs := h.serving.ring.le
    rw [hv, h.wrbPidx, dist_mod (by omega) (by omega)] at hring
    omega
  · rw [hc]
    refine ⟨hf, hcol.trans h.color, herr, ?_, ?_⟩
    · intro h3
      rcases hcase with ⟨_, hlen, _⟩ | ⟨h3', _, _⟩
      · exact hlen
      · exact absurd (h3.symm.trans h3') (by decide)
    · intro h3
      rcases hcase with ⟨h3', _, _⟩ | ⟨_, hudd, _⟩
      · exact absurd (h3'.symm.trans h3) (by decide)
      · exact hudd

/-- The buffers once a packet has landed. -/
theorem Receiving.land {q : Descq} {pend T : ℕ} {bufs bs : List Buf}
    (h : Receiving q pend pend bufs) (hT : bufs.length ≤ T)
    (hroom : T + bs.length < pend + q.conf.rngsz) :
    Receiving (q.land (T % q.conf.rngsz) bs) pend pend bufs ∧
      LandSpec q.conf.rngsz q.flq.sdesc (q.land (T % q.conf.rngsz) bs).flq.sdesc T bs := by
  have hpp := h.fl.pend_le
  have hspec := land_spec h.sizes.pos q.flq.sdesc T bs (by omega)
  obtain ⟨h1, hfl, h3, h4, h5, h6, h7⟩ := h
  refine ⟨⟨h1.congr rfl rfl rfl rfl, ?_, h3, ?_, h5, h6, h7⟩, hspec⟩
  · refine FreeList.write hfl (fun j h1 h2 => ?_)
      (fun i => ⟨rfl, hspec.len i, hspec.offset i⟩)
    exact Prod.ext (hspec.old j (by omega) (by omega) (by omega)) rfl
  · show q.flq.pktDlen + _ = _
    rw [← h4]
    exact congrArg _ (hspec.offset _)

/-- The completion ring once an entry is written. -/
theorem CmplRing.write {q q' : Descq} {sent : List Cmpl} {c : Cmpl} {r : ℕ}
    (h : CmplRing q sent r) (hL : 0 < q.wbEntryLen)
    (hlap : sent.length + 1 < r + q.conf.rngszWrb)
    (hgood : c.Good q.conf (lap q.conf.rngszWrb sent.length)) (hseq : c.seq = sent.length + 1)
    (hconf : q'.conf = q.conf) (hcidx : q'.cidxWrb = q.cidxWrb) (hcolor : q'.color = q.color)
    (hcur : q'.descWrbCur = q.descWrbCur) (hlen : q'.wbEntryLen = q.wbEntryLen)
    (hmem : q'.descWrb.mem = Function.update q.descWrb.mem
      (sent.length % q.conf.rngszWrb * q.wbEntryLen) c.word) :
    CmplRing q' (sent ++ [c]) r := by
  refine ⟨?_, ?_, ?_, ?_, ?_, ?_, ?_, ?_⟩
  · rw [hconf]; exact h.pos
  · rw [hconf]; exact h.le_max
  · rw [hconf, hcidx]; exact h.cidx
  · rw [hconf, hcur, hlen]; exact h.cur
  · rw [hconf, hcolor]; exact h.color
  · rw [List.length_append]
    exact h.le.trans (Nat.le_add_right _ _)
  · intro k hk hr
    rw [List.length_append, List.length_singleton] at hk
    rw [hconf, hlen, hmem, List.getElem_append]
    split_ifs with hlt
    · -- the entries of one lap have different places
      have hne := mod_ne_mod (n := q.conf.rngszWrb) hlt (by omega)
      rw [Function.update_of_ne (fun he => hne (Nat.eq_of_mul_eq_mul_right hL he))]
      exact h.entry k hlt hr
    · have hk' : k = sent.length := by omega
      subst hk'
      rw [Function.update_self]
      simpa using hgood
  · intro k hk
    rw [List.length_append, List.length_singleton] at hk
    rw [List.getElem_append]
    split_ifs with hlt
    · exact h.seq k hlt
    · have hk' : k = sent.length := by omega
      subst hk'
      simpa using hseq

theorem RxInv.dma {s : Rx} {r pend : ℕ} (h : RxInv s r pend) {word : ℕ} {payload : List UInt8}
    (hl : RxLegal s (.dma word payload)) : RxInv (s.dma word payload) r pend := by
  set c : Cmpl := { word := word, payload := payload, seq := s.sent.length + 1 } with hc
  set bs := c.bufs s.q.conf.c2hBufsz with hbs
  obtain ⟨hroom, hlap, hgood⟩ := h.room hc hl
  rw [← hbs] at hroom
  have hr := h.serving.ring.le
  have hn := h.serving.rx.sizes.pos
  have hnw := h.serving.ring.pos
  have hpre := (allBufs_isPrefix s.q.conf.c2hBufsz s.sent r).length_le
  have hpp := h.serving.rx.fl.pend_le
  obtain ⟨hrx, hspec⟩ := h.serving.rx.land hpre hroom
  rw [← h.bufPidx] at hrx hspec
  have hq : (s.dma word payload).q
      = (s.q.land s.bufPidx bs).setWrb (s.wrbPidx * s.q.wbEntryLen) word := rfl
  have hsent : (s.dma word payload).sent = s.sent ++ [c] := rfl
  have htake : (s.sent ++ [c]).take r = s.sent.take r := List.take_append_of_le_length hr
  have hall : allBufs s.q.conf.c2hBufsz (s.sent ++ [c])
      = allBufs s.q.conf.c2hBufsz s.sent ++ bs := by
    rw [allBufs_append, allBufs_singleton]
  have hring : CmplRing (s.dma word payload).q (s.sent ++ [c]) r := by
    refine h.serving.ring.write h.entryLen hlap hgood rfl rfl rfl rfl rfl rfl ?_
    rw [hq, h.wrbPidx]
    rfl
  -- what has been read so far is the same; the packet comes behind all others
  refine ⟨⟨?_, hring, ?_, ?_⟩, ?_, h.bell, h.entryLen, ?_, ?_, ?_, ?_, ?_⟩
  · rw [hsent, htake]
    exact hrx.congr rfl rfl rfl rfl rfl
  · rw [hsent, htake]
    show Landed s.q.conf.rngsz (s.q.land s.bufPidx bs).flq.sdesc
      (allBufs s.q.conf.c2hBufsz (s.sent ++ [c])) _
    rw [hall]
    intro j hj hP
    have hP' : (allBufs s.q.conf.c2hBufsz (s.sent.take r)).length ≤ j := hP
    rw [List.length_append] at hj
    rw [List.getElem_append]
    split_ifs with hlt
    · rw [hspec.old j (by omega) hlt (by omega)]
      exact h.serving.landed j hlt hP'
    · have := hspec.new (j - (allBufs s.q.conf.c2hBufsz s.sent).length) (by omega)
      rwa [Nat.add_sub_cancel' (by omega)] at this
  · rw [hsent]
    show (allBufs s.q.conf.c2hBufsz (s.sent ++ [c])).length < pend + s.q.conf.rngsz
    rw [hall, List.length_append]
    exact hroom
  · rw [hsent, htake]
    exact h.pidx
  · rw [hsent]
    show adv s.q.conf.rngsz s.bufPidx bs.length
      = (allBufs s.q.conf.c2hBufsz (s.sent ++ [c])).length % s.q.conf.rngsz
    rw [hall, List.length_append, h.bufPidx, adv_mod]
  · show adv s.q.conf.rngszWrb s.wrbPidx 1 = (s.sent ++ [c]).length % s.q.conf.rngszWrb
    rw [h.wrbPidx, adv_mod, List.length_append, List.length_singleton]
  · show (if adv s.q.conf.rngszWrb s.wrbPidx 1 = 0 then !s.color else s.color)
      = lap s.q.conf.rngszWrb (s.sent ++ [c]).length
    -- the colour turns where the index of the completion ring wraps
    have hlt := Nat.mod_lt s.sent.length hnw
    rw [List.length_append, List.length_singleton, lap_succ hnw, h.wrbPidx, adv_one hlt, h.color]
    by_cases hw : s.sent.length % s.q.conf.rngszWrb + 1 = s.q.conf.rngszWrb
    · rw [if_pos hw, if_pos rfl, if_pos hw]
    · rw [if_neg hw, if_neg (Nat.succ_ne_zero _), if_neg hw]
  · obtain ⟨w, hw, hrw, hws⟩ := h.published
    exact ⟨w, hw, hrw, by rw [hsent, List.length_append]; omega⟩
  · obtain ⟨v, hv, hvle, hvlt⟩ := h.wrbBell
    refine ⟨v, hv, ?_, ?_⟩
    · show v ≤ lastSeq 0 ((allBufs s.q.conf.c2hBufsz (s.sent ++ [c])).take pend)
      rw [hall, List.take_append_of_le_length (by omega)]
      exact hvle
    · rw [hsent, List.length_append, List.length_singleton]
      show s.sent.length + 1 < v + s.q.conf.rngszWrb
      -- the device leaves one entry of the completion ring free
      have hring' := hl.2.2.2.1
      have hvr := h.take_pend ▸ hvle
      have hvr' := lastSeq_le s.q.conf.c2hBufsz h.serving.ring.seq r pend
      rw [hv, h.wrbPidx, dist_mod (by omega) (by omega)] at hring'
      omega

/-- **One step** keeps the law of the queue. -/
theorem rxInv_step {s : Rx} {r pend : ℕ} {l : RxLabel} (h : RxInv s r pend)
    (hl : RxLegal s l) : ∃ r' pend', RxInv (s.step l) r' pend' := by
  cases l with
  | submit req =>
      obtain ⟨k, hk⟩ := h.submit req
      exact ⟨r, _, hk⟩
  | pend id =>
      refine ⟨r, pend, ?_⟩
      rcases step_pend_cases s id with heq | ⟨cb, -, -, heq⟩
      · rw [heq]
        exact h
      · rw [heq]
        exact h.pendCb cb
  | wait id => exact ⟨r, pend, h.wait id⟩
  | packetRead req =>
      obtain ⟨k, hk⟩ := h.packetRead req
      exact ⟨r, _, hk⟩
  | service budget fill =>
      rcases h.service budget fill with hq | ⟨k, _, _, hk, _⟩
      · exact ⟨r, pend, h.same ⟨rfl, rfl, rfl, rfl⟩ hq⟩
      · exact ⟨_, _, hk⟩
  | dma word payload => exact ⟨r, pend, h.dma hl⟩
  | publish p => exact ⟨r, pend, h.publish hl.1 hl.2⟩

/-- **Every run** keeps the law of the queue. -/
theorem rxInv_run {s₀ s : Rx} {evs : List RxLabel} {r pend : ℕ} (h : RxInv s₀ r pend)
    (hrun : Run Rx.step RxLegal s₀ evs s) : ∃ r' pend', RxInv s r' pend' :=
  hrun.invariant (I := fun s => ∃ r' pend', RxInv s r' pend') ⟨r, pend, h⟩
    (fun _ _ ⟨_, _, hi⟩ hl => rxInv_step hi hl)

end Qdma
