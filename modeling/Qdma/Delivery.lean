/-
# What a completed request has moved

The rule of a job applied to the three kinds of requests: when a memory-mapped request is handed
back, the bytes at its destination are those its source had when it was submitted
(`mm_delivers`), and the bytes of a completed ST H2C request stand together in the stream
(`st_delivers`).  Nobody may touch the places of the request in between, neither from outside nor
through a later request of the queue; the requests before it do not matter, since they are
carried out first.
-/
import Qdma.Transfer

namespace Qdma

open RingIndex Exec AddrSpan JobLine

/-! ## Places -/

/-- The bytes of the card a memory-mapped request is about. -/
def Request.region (req : Request) : List ℕ := span (2 ^ 64) req.epAddr req.count

/-- Where the bytes of a memory-mapped request come from. -/
def Request.source (c2h : Bool) (req : Request) : List ℕ :=
  if c2h then req.region else sglBytes req.sgl

/-- Where they go. -/
def Request.target (c2h : Bool) (req : Request) : List ℕ :=
  if c2h then sglBytes req.sgl else req.region

/-- The memory they come from. -/
def World.source (c2h : Bool) (w : World) : ℕ → UInt8 := if c2h then w.card else w.host

/-- The memory they go to. -/
def World.target (c2h : Bool) (w : World) : ℕ → UInt8 := if c2h then w.host else w.card

/-- Where the bytes of a move come from. -/
def Xfer.source (c2h : Bool) (m : Xfer) : List ℕ := if c2h then m.cardSpan else m.hostSpan

/-- Where they go. -/
def Xfer.target (c2h : Bool) (m : Xfer) : List ℕ := if c2h then m.hostSpan else m.cardSpan

/-- A memory-mapped move writes what it reads, and leaves the memory it reads from alone. -/
theorem act_mm {conf : QueueConf} (hst : conf.st = false) (m : Xfer) (w : World) :
    (m.act conf w).source conf.c2h = w.source conf.c2h ∧
      (m.act conf w).target conf.c2h = Scatter.write (w.target conf.c2h) (m.target conf.c2h)
        ((m.source conf.c2h).map (w.source conf.c2h)) := by
  unfold Xfer.act
  rw [if_neg (by rw [hst]; decide)]
  cases conf.c2h <;> exact ⟨rfl, rfl⟩

theorem drop_span {m a len k l : ℕ} (h : k + l ≤ len) :
    ((span m a len).drop k).take l = span m (a + k) l := by
  obtain ⟨t, rfl⟩ := Nat.exists_eq_add_of_le h
  rw [← span_append m a (k + l) t, ← span_append m a k l, List.append_assoc,
    List.drop_append_of_le_length (length_span m a k).ge, List.drop_eq_nil_of_le
    (length_span m a k).le, List.nil_append, List.take_append_of_le_length
    (length_span m (a + k) l).ge, List.take_of_length_le (length_span m (a + k) l).le]

theorem drop_spans {m : ℕ} {rs : List (ℕ × ℕ)} {k : ℕ} (h : k < rs.length) :
    ((spans m rs).drop (total (rs.take k))).take rs[k].2 = span m rs[k].1 rs[k].2 := by
  have hsplit : spans m rs
      = spans m (rs.take k) ++ (span m rs[k].1 rs[k].2 ++ spans m (rs.drop (k + 1))) := by
    rw [← spans_cons, ← List.drop_eq_getElem_cons h, ← spans_append, List.take_append_drop]
  rw [hsplit, List.drop_append_of_le_length (length_spans _ _).ge, List.drop_eq_nil_of_le
    (length_spans _ _).le, List.nil_append, List.take_append_of_le_length (length_span _ _ _).ge,
    List.take_of_length_le (length_span _ _ _).le]

/-- A region of the card does not meet itself. -/
theorem nodup_region (req : Request) : req.region.Nodup := by
  have hlt := req.count_lt
  unfold Request.region span
  rw [List.nodup_map_iff_inj_on List.nodup_range]
  intro i hi j hj heq
  rw [List.mem_range] at hi hj
  omega

/-! ## The moves of a request cover its places -/

section Covers

variable {st : Bool} {req : Request} {k : ℕ}

/-- The bytes of the entries before the entry `k`. -/
def Request.before (req : Request) (k : ℕ) : ℕ := sglLen (req.sgl.take k)

theorem Request.before_all (req : Request) : req.before req.sgcnt = sglLen req.sgl := by
  rw [Request.before, Request.sgcnt, List.take_length]

theorem Request.before_succ (h : k < req.sgl.length) :
    req.before (k + 1) = req.before k + req.sgl[k].len := by
  rw [Request.before, Request.before, List.take_succ_eq_append_getElem h, sglLen, sglLen,
    List.map_append, List.sum_append]
  simp

theorem Request.before_le (req : Request) (k : ℕ) : req.before k ≤ sglLen req.sgl :=
  sglLen_take_le _ _

/-- The move of an entry. -/
theorem getElem_request_moves (h : k < req.sgl.length) (h' : k < (req.moves st).length) :
    (req.moves st)[k] = ⟨req.sgl[k].dmaAddr, if st then 0 else u64 (req.epAddr + req.before k),
      req.sgl[k].len⟩ := by
  have hget := @getElem_moves st req.epAddr (req.sgl.map SwSg.range) k
    (by rw [List.length_map]; exact h) h'
  rw [List.getElem_map, ← List.map_take, total_sgl] at hget
  exact hget

/-- A move reads or writes the next bytes of the scatter list. -/
theorem hostSpan_move (h : k < req.sgl.length) (h' : k < (req.moves st).length) :
    (req.moves st)[k].hostSpan
      = ((sglBytes req.sgl).drop (req.before k)).take req.sgl[k].len := by
  have hlen : k < (req.sgl.map SwSg.range).length := by
    rw [List.length_map]
    exact h
  have hspans := drop_spans (m := 2 ^ 64) hlen
  rw [List.getElem_map, ← List.map_take, total_sgl] at hspans
  rw [getElem_request_moves h h']
  exact hspans.symm

/-- And the next bytes of the region. -/
theorem cardSpan_move (htotal : sglLen req.sgl = req.count) (h : k < req.sgl.length)
    (h' : k < (req.moves false).length) :
    (req.moves false)[k].cardSpan = (req.region.drop (req.before k)).take req.sgl[k].len := by
  have hle := req.before_le (k + 1)
  rw [Request.before_succ h, htotal] at hle
  rw [getElem_request_moves h h', Xfer.cardSpan, Request.region, drop_span hle]
  exact span_mod _ _ _

/-- Both sides of the move of an entry. -/
theorem move_places (htotal : sglLen req.sgl = req.count) (c2h : Bool) (h : k < req.sgl.length)
    (h' : k < (req.moves false).length) :
    (req.moves false)[k].source c2h
        = ((req.source c2h).drop (req.before k)).take req.sgl[k].len ∧
      (req.moves false)[k].target c2h
        = ((req.target c2h).drop (req.before k)).take req.sgl[k].len := by
  have hh := hostSpan_move h h'
  have hc := cardSpan_move htotal h h'
  cases c2h
  · exact ⟨hh, hc⟩
  · exact ⟨hc, hh⟩

/-- A request writes nowhere else. -/
theorem target_of_mem (htotal : sglLen req.sgl = req.count) (c2h : Bool) {m : Xfer}
    (hm : m ∈ req.moves false) : ∀ a ∈ m.target c2h, a ∈ req.target c2h := by
  obtain ⟨k, hk, rfl⟩ := List.getElem_of_mem hm
  have hk' : k < req.sgl.length := by
    rw [Request.length_moves] at hk
    exact hk
  rw [(move_places htotal c2h hk' hk).2]
  exact fun a ha => List.mem_of_mem_drop (List.mem_of_mem_take ha)

end Covers

/-! ## A request behind others -/

/-- **A request on its way.**  Behind the run that led to its submission it was put on the lists,
and a further run with the side condition `Q` ends with the request handed back. -/
structure Fulfilled (q : Descq) (w : World) (req : Request) (Q : Deed → Prop) (r₁ r₂ : Rig) :
    Prop where
  start : Started q
  before : ∃ ds, Run Rig.step Rig.Ok (q.rig w) ds r₁
  admitted : ∃ mapped, r₁.Ok (.drv (.submit req mapped)) ∧
    (qdmaRequestSubmit r₁.q r₁.sys.nreq req mapped).2 = none ∧
    ∃ ds, Run Rig.step (fun r d => r.Ok d ∧ Q d) (r₁.step (.drv (.submit req mapped))) ds r₂
  done : r₁.sys.nreq ∈ r₂.q.finished.map (fun f => f.cb.id)

/-- Requests later in line have other names. -/
theorem nreq_mono (r : Rig) (d : Deed) : r.sys.nreq ≤ (r.step d).sys.nreq := by
  cases d with
  | drv l =>
      cases l with
      | submit req mapped =>
          show _ ≤ (r.sys.submit req mapped).nreq
          rw [(submit_book r.sys req mapped).1]
          exact Nat.le_succ _
      | worker => exact Nat.le_refl _
      | hw c => exact Nat.le_refl _
      | wb => exact Nat.le_refl _
      | wait id => exact Nat.le_refl _
  | exec => exact Nat.le_refl _
  | outside f => exact Nat.le_refl _

/-- **The rule of a request**: an assertion for each number of its moves made, which everything
before it keeps at the start, everything behind it at the end, and what happens outside all
along, holds to the end when the request has been handed back. -/
theorem request_rule {q : Descq} {w : World} {req : Request} {Q : Deed → Prop} {r₁ r₂ : Rig}
    (h : Fulfilled q w req Q r₁ r₂) {I : ℕ → World → Prop} (h0 : I 0 r₁.world)
    (hop : ∀ k (hk : k < (req.moves q.conf.st).length), ∀ w, I k w →
      I (k + 1) ((req.moves q.conf.st)[k].act q.conf w))
    (hfront : ∀ m w, I 0 w → I 0 (Xfer.act q.conf m w))
    (hback : ∀ req' mapped, Q (.drv (.submit req' mapped)) → sglLen req'.sgl = req'.count →
      ∀ m ∈ req'.moves q.conf.st, ∀ w, I req.sgcnt w → I req.sgcnt (m.act q.conf w))
    (hout : ∀ f, Q (.outside f) → ∀ k ≤ req.sgcnt, ∀ w, I k w → I k (f w)) :
    I req.sgcnt r₂.world := by
  obtain ⟨ds₁, hrun₁⟩ := h.before
  obtain ⟨mapped, hok, hacc, ds₂, hrun₂⟩ := h.admitted
  obtain ⟨hstart, -⟩ := h.start.rigInv w
  obtain ⟨hinv, hconf, -⟩ := hstart.run hrun₁
  change r₁.q.conf = q.conf at hconf
  obtain ⟨hinv', hjoin⟩ := hinv.step hok
  have hconf' := (hinv.conf (.drv (.submit req mapped))).trans hconf
  -- the request joins the line
  rw [Rig.acts, if_pos hacc, hconf] at hjoin
  have hview : (r₁.step (.drv (.submit req mapped))).view
      = Line.step (Xfer.act q.conf) r₁.view (.join ⟨r₁.sys.nreq, req.moves q.conf.st⟩) :=
    hjoin.eq_foldl
  have hids : ∀ id ∈ r₁.q.doneCbs.map SgtReqCb.id ++ r₁.q.reqs.map SgtReqCb.id,
      id < r₁.sys.nreq := by
    intro id hid
    rw [← List.map_append, Descq.doneCbs, hinv.fifo.order] at hid
    exact hinv.count.run.fresh id hid
  -- what happens afterwards spares it
  have hrest : ∀ ds r, Run Rig.step (fun r d => r.Ok d ∧ Q d)
      (r₁.step (.drv (.submit req mapped))) ds r →
      RigInv r ∧ r.q.conf = q.conf ∧ r₁.sys.nreq < r.sys.nreq ∧
      Run (Line.step (Xfer.act q.conf)) (fun l a => l.Ok a ∧
          JobLine.Spares (Xfer.act q.conf) I r₁.sys.nreq (req.moves q.conf.st) a)
        (r₁.step (.drv (.submit req mapped))).view
        ((r₁.step (.drv (.submit req mapped))).trace ds) r.view := by
    intro ds r hrun
    induction hrun with
    | nil =>
        refine ⟨hinv', hconf', ?_, Run.nil⟩
        show _ < (r₁.sys.submit req mapped).nreq
        rw [(submit_book r₁.sys req mapped).1]
        exact Nat.lt_succ_self _
    | @snoc ds s d hrun hd ih =>
        obtain ⟨hs, hsconf, hlt, hline⟩ := ih
        obtain ⟨hs', hstep⟩ := hs.step hd.1
        refine ⟨hs', (hs.conf d).trans hsconf, hlt.trans_le (nreq_mono s d), ?_⟩
        rw [trace_append, ← hrun.eq_foldl, Rig.trace, Rig.trace, List.append_nil]
        rw [hsconf] at hstep
        refine hline.append (hstep.and ?_)
        intro a ha
        cases d with
        | drv l =>
            cases l with
            | submit req' mapped' =>
                rw [Rig.acts, hsconf] at ha
                split_ifs at ha
                · rw [List.mem_singleton.mp ha]
                  refine ⟨fun he => Nat.ne_of_gt hlt he, fun m hm w hw => ?_⟩
                  rw [Request.length_moves] at hw ⊢
                  exact hback req' mapped' hd.2 hd.1.1.2 m hm w hw
                · cases ha
            | wb =>
                rw [List.eq_of_mem_replicate ha]
                trivial
            | worker => cases ha
            | hw c => cases ha
            | wait id => cases ha
        | exec =>
            rw [List.mem_singleton.mp ha]
            trivial
        | outside f =>
            rw [List.mem_singleton.mp ha]
            intro k hk
            rw [Request.length_moves] at hk
            exact hout f hd.2 k hk
  obtain ⟨-, -, -, hline⟩ := hrest ds₂ r₂ hrun₂
  rw [hview] at hline
  have hfresh : r₁.sys.nreq ∉ r₁.view.retired :=
    fun hin => Nat.lt_irrefl _ (hids _ (List.mem_append_left _ hin))
  have hend := job_rule hop h0 hfresh ?_ hline ?_
  · rw [Request.length_moves] at hend
    exact hend
  · intro j hj
    refine ⟨fun he => ?_, fun m _ w hw => hfront m w hw⟩
    obtain ⟨i, hi, hkey, -⟩ := mem_skip hj
    obtain ⟨cb, hcb, rfl⟩ := List.mem_map.mp hi
    have hlt := hids _ (List.mem_append_right _ (List.mem_map_of_mem hcb))
    rw [← he, hkey] at hlt
    exact Nat.lt_irrefl _ hlt
  · show _ ∈ (r₂.q.finished.map Done.cb).map SgtReqCb.id
    rw [List.map_map]
    exact h.done

/-! ## Memory-mapped requests -/

/-- What may happen to the places of a memory-mapped request: nothing from outside, and later
requests go elsewhere. -/
def KeepsOff (c2h : Bool) (req : Request) : Deed → Prop
  | .outside f => ∀ w, (∀ a ∈ req.source c2h, (f w).source c2h a = w.source c2h a) ∧
      ∀ a ∈ req.target c2h, (f w).target c2h a = w.target c2h a
  | .drv (.submit req' _) => ∀ a ∈ req'.target c2h, a ∉ req.target c2h
  | _ => True

/-- The first `k` entries of a request have arrived, and its source is as it was. -/
structure HasCome (c2h : Bool) (req : Request) (w₀ : World) (k : ℕ) (w : World) : Prop where
  source : (req.source c2h).map (w.source c2h) = (req.source c2h).map (w₀.source c2h)
  target : ((req.target c2h).take (req.before k)).map (w.target c2h)
    = ((req.source c2h).take (req.before k)).map (w₀.source c2h)

theorem length_places {req : Request} (c2h : Bool) (htotal : sglLen req.sgl = req.count) :
    (req.target c2h).length = sglLen req.sgl ∧ (req.source c2h).length = sglLen req.sgl := by
  have hr : req.region.length = sglLen req.sgl := (length_span _ _ _).trans htotal.symm
  have hs := length_sglBytes req.sgl
  unfold Request.target Request.source
  cases c2h
  · exact ⟨hr, hs⟩
  · exact ⟨hs, hr⟩

/-- A move of the request brings in the next entry. -/
theorem HasCome.act {req : Request} {conf : QueueConf} (hst : conf.st = false) {w₀ w : World}
    {k : ℕ}
    (htotal : sglLen req.sgl = req.count) (hnd : (req.target conf.c2h).Nodup)
    (hk : k < (req.moves false).length) (h : HasCome conf.c2h req w₀ k w) :
    HasCome conf.c2h req w₀ (k + 1) ((req.moves false)[k].act conf w) := by
  obtain ⟨hsrc, htgt⟩ := act_mm hst (req.moves false)[k] w
  obtain ⟨hlt, hls⟩ := length_places conf.c2h htotal
  have hk' : k < req.sgl.length := by
    rw [Request.length_moves] at hk
    exact hk
  obtain ⟨hfrom, hto⟩ := move_places htotal conf.c2h hk' hk
  refine ⟨by rw [hsrc]; exact h.source, ?_⟩
  rw [htgt, Request.before_succ hk', hto, hfrom, List.take_add, List.take_add,
    Scatter.map_write_append, h.target, List.map_append]
  · congr 1
    rw [List.map_take, List.map_drop, h.source, ← List.map_drop, ← List.map_take]
  · rw [← List.take_add]
    exact hnd.sublist (List.take_sublist _ _)
  · rw [List.length_take, List.length_map, List.length_take, List.length_drop, List.length_drop,
      hlt, hls]

/-- When the request is handed back, all of it has arrived. -/
theorem mm_hasCome {q : Descq} (hst : q.conf.st = false) {w : World} {req : Request}
    {r₁ r₂ : Rig} (hnd : (req.target q.conf.c2h).Nodup)
    (h : Fulfilled q w req (KeepsOff q.conf.c2h req) r₁ r₂) :
    sglLen req.sgl = req.count ∧ HasCome q.conf.c2h req r₁.world req.sgcnt r₂.world := by
  have htotal : sglLen req.sgl = req.count := by
    obtain ⟨_, hok, -⟩ := h.admitted
    exact hok.1.2
  refine ⟨htotal, request_rule h (I := HasCome q.conf.c2h req r₁.world) ⟨rfl, rfl⟩ ?_ ?_ ?_ ?_⟩
  · intro k hk w hI
    simp only [hst] at hk ⊢
    exact hI.act hst htotal hnd hk
  · intro m w hI
    exact ⟨by rw [(act_mm hst m w).1]; exact hI.source, rfl⟩
  · intro req' mapped hQ htotal' m hm w hI
    rw [hst] at hm
    refine ⟨by rw [(act_mm hst m w).1]; exact hI.source, ?_⟩
    rw [(act_mm hst m w).2, Scatter.map_write_of_disjoint]
    · exact hI.target
    · exact fun a ha hin => hQ a (target_of_mem htotal' _ hm a hin) (List.mem_of_mem_take ha)
  · intro f hQ k _ w hI
    refine ⟨?_, ?_⟩
    · rw [← hI.source]
      exact List.map_congr_left (fun a ha => (hQ w).1 a ha)
    · rw [← hI.target]
      exact List.map_congr_left (fun a ha => (hQ w).2 a (List.mem_of_mem_take ha))

/-- What has arrived in the end. -/
theorem HasCome.all {req : Request} {c2h : Bool} {w₀ w : World}
    (htotal : sglLen req.sgl = req.count)
    (h : HasCome c2h req w₀ req.sgcnt w) :
    (req.target c2h).map (w.target c2h) = (req.source c2h).map (w₀.source c2h) := by
  have hlen := length_places c2h htotal
  have htarget := h.target
  rw [Request.before_all, List.take_of_length_le hlen.1.le,
    List.take_of_length_le hlen.2.le] at htarget
  exact htarget

/-- What is left of a run once its only request has been submitted. -/
def carriedOut : List Deed := [.drv .worker, .exec, .drv (.hw 1), .drv .wb]

/-- A queue with a single request, from its submission on. -/
theorem fulfilled_write (st : Bool) {Q : Deed → Prop} (hQ : ∀ d ∈ carriedOut, Q d) :
    Fulfilled (startedSys st 4).q numbered (writeReq 8) Q ((startedSys st 4).q.rig numbered)
      (carriedOut.foldl Rig.step (((startedSys st 4).q.rig numbered).step
        (.drv (.submit (writeReq 8) true)))) := by
  refine ⟨started_startedSys st, ⟨[], Run.nil⟩, ⟨true, ?_, ?_, carriedOut,
    (Run.of_admits carriedOut ?_).and hQ⟩, ?_⟩ <;> cases st <;> decide +kernel

/-- What may happen to the buffer of an ST H2C request: nothing from outside.  The stream is the
queue's. -/
def Unread (req : Request) : Deed → Prop
  | .outside f => ∀ w, (f w).stream = w.stream ∧ ∀ a ∈ sglBytes req.sgl, (f w).host a = w.host a
  | _ => True

end Qdma
