/-
# Completion in submission order

Requests whose entries take one descriptor each and that leave the lists only by
completing.  On top of the ledger, `FifoInv` counts the descriptors handed to the device:
those of completed and pending requests in full, those of the request being served up to
where it stands.

`credit_fifo` draws the conclusion: credits are conserved, requests complete in the order
they were queued, and a request is complete exactly when the device has reported the last
of its descriptors consumed.
-/
import Qdma.Credit

namespace Qdma

open RingIndex Blocks Exec

/-! ## Well-formed requests -/

/-- The longest transfer of one descriptor. -/
def descLenMax (st : Bool) : ℕ := if st then pageSize else qdmaDescBlenMax

/-- Entries that are not empty and fit one descriptor, adding up to the count. -/
def WellFormed (st : Bool) (req : Request) : Prop :=
  (∀ sg ∈ req.sgl, 0 < sg.len ∧ sg.len ≤ descLenMax st) ∧ sglLen req.sgl = req.count

instance (st : Bool) (req : Request) : Decidable (WellFormed st req) := by
  unfold WellFormed
  infer_instance

/-- Such an entry takes one descriptor. -/
theorem entryDescs_eq_one {st : Bool} {sg : SwSg} (h0 : 0 < sg.len)
    (h1 : sg.len ≤ descLenMax st) : entryDescs st sg = 1 := by
  obtain ⟨n, hn⟩ : ∃ n, sg.len = n + 1 := ⟨sg.len - 1, by omega⟩
  unfold entryDescs entryPieces stPieces mmPieces
  cases st with
  | true =>
      have h1' : n + 1 ≤ pageSize := hn ▸ h1
      simp only [if_true, hn, if_neg (Nat.succ_ne_zero n), cut, Nat.min_eq_left h1',
        Nat.sub_self, cut_zero, List.length_singleton]
  | false =>
      have h1' : n + 1 ≤ qdmaDescBlenMax := hn ▸ h1
      simp only [Bool.false_eq_true, if_false, hn, if_neg (Nat.succ_ne_zero n), cut,
        Nat.min_eq_left h1', Nat.sub_self, cut_zero, List.length_singleton]

theorem map_entryDescs {st : Bool} {sgl : List SwSg}
    (h : ∀ sg ∈ sgl, 0 < sg.len ∧ sg.len ≤ descLenMax st) :
    sgl.map (entryDescs st) = List.replicate sgl.length 1 := by
  rw [List.eq_replicate_iff]
  refine ⟨List.length_map _, fun d hd => ?_⟩
  obtain ⟨sg, hsg, rfl⟩ := List.mem_map.mp hd
  exact entryDescs_eq_one (h sg hsg).1 (h sg hsg).2

/-- Blocks of one unit are never cut. -/
theorem stopsAtBlock_ones {ds : List ℕ} (h : ∀ d ∈ ds, d = 1) (a : ℕ) : StopsAtBlock ds a := by
  induction ds generalizing a with
  | nil => trivial
  | cons d ds ih =>
      have hd := h d (List.mem_cons_self ..)
      rcases Nat.eq_zero_or_pos a with h0 | hpos
      · exact .inl h0
      · exact .inr ⟨by omega, ih (fun e he => h e (List.mem_cons_of_mem _ he)) _⟩

/-- Without empty entries a longer front part has more bytes. -/
theorem sglLen_take_lt {sgl : List SwSg} (h : ∀ sg ∈ sgl, 0 < sg.len) {i j : ℕ} (hij : i < j)
    (hi : i < sgl.length) : sglLen (sgl.take i) < sglLen (sgl.take j) := by
  induction sgl generalizing i j with
  | nil => exact absurd hi (Nat.not_lt_zero _)
  | cons sg sgl ih =>
      obtain ⟨j, rfl⟩ : ∃ m, j = m + 1 := ⟨j - 1, by omega⟩
      rw [List.take_succ_cons, sglLen_cons]
      cases i with
      | zero =>
          have := h sg (List.mem_cons_self ..)
          rw [List.take_zero, sglLen_nil]
          omega
      | succ i =>
          rw [List.take_succ_cons, sglLen_cons]
          have := ih (fun s hs => h s (List.mem_cons_of_mem _ hs)) (i := i) (j := j) (by omega)
            (by rw [List.length_cons] at hi; omega)
          omega

/-! ## The request being served -/

/-- `cb` has posted its first `descNr` entries and is not done. -/
structure Partway (st : Bool) (cb : SgtReqCb) : Prop where
  wf : WellFormed st cb.req
  entries : cb.offset = sglLen (cb.req.sgl.take cb.descNr)
  more : cb.descNr = 0 ∨ cb.descNr < cb.req.sgcnt

theorem Partway.left {st : Bool} {cb : SgtReqCb} (h : Partway st cb) (hat : AtEntry cb) :
    leftEntries cb = cb.req.sgl.drop cb.descNr := by
  obtain ⟨i, hi, hlen, hzero⟩ := resumeAt_atEntry hat
  have hpos : ∀ sg ∈ cb.req.sgl, 0 < sg.len := fun sg hsg => (h.wf.1 sg hsg).1
  unfold leftEntries
  rw [hi]
  have hsame : i = cb.descNr ∨ cb.req.sgl = [] := by
    rw [h.entries] at hlen hzero
    by_contra hne
    obtain ⟨hne, hnil⟩ := not_or.mp hne
    have hlen0 : 0 < cb.req.sgl.length := List.length_pos_iff.mpr hnil
    rcases Nat.lt_or_gt_of_ne hne with hlt | hgt
    · have hin : i < cb.req.sgl.length := by
        have := h.more
        unfold Request.sgcnt at this
        omega
      have := sglLen_take_lt hpos hlt hin
      omega
    · rcases h.more with h0 | hin
      · rw [h0, List.take_zero, sglLen_nil] at hzero
        have := hzero rfl
        omega
      · have := sglLen_take_lt hpos hgt hin
        omega
  rcases hsame with rfl | hnil
  · rfl
  · simp only [hnil, List.drop_nil]

theorem Partway.leftDescs {st : Bool} {cb : SgtReqCb} (h : Partway st cb) (hat : AtEntry cb) :
    leftDescs st cb = List.replicate (cb.req.sgcnt - cb.descNr) 1 := by
  unfold Qdma.leftDescs
  rw [h.left hat, map_entryDescs (fun sg hsg => h.wf.1 sg (List.mem_of_mem_drop hsg)),
    List.length_drop]
  rfl

theorem Partway.sum_leftDescs {st : Bool} {cb : SgtReqCb} (h : Partway st cb)
    (hat : AtEntry cb) : (Qdma.leftDescs st cb).sum = cb.req.sgcnt - cb.descNr := by
  rw [h.leftDescs hat, List.sum_replicate_nat, Nat.mul_one]

/-- The bytes of the next `k` descriptors are those of the next `k` entries. -/
theorem Partway.bytes {st : Bool} {cb : SgtReqCb} (h : Partway st cb) (hat : AtEntry cb)
    {k : ℕ} (hk : cb.descNr + k ≤ cb.req.sgcnt) :
    cb.offset + Qdma.bytes ((leftPieces st cb).take k)
      = sglLen (cb.req.sgl.take (cb.descNr + k)) := by
  have htake := bytes_take_entries st (leftEntries cb) k
  have hsum : (((leftEntries cb).map (entryDescs st)).take k).sum = k := by
    have hrep := h.leftDescs hat
    unfold Qdma.leftDescs at hrep
    rw [hrep, List.take_replicate, List.sum_replicate_nat, Nat.mul_one]
    omega
  rw [hsum, h.left hat] at htake
  unfold leftPieces
  rw [h.left hat, htake, h.entries, List.take_add]
  unfold sglLen
  rw [List.map_append, List.sum_append]

/-- The pieces a pass posts are the next descriptors of the request. -/
theorem Partway.pieces {st : Bool} {cb : SgtReqCb} (h : Partway st cb) (hat : AtEntry cb)
    {a : ℕ} {ps : List Piece} (hps : ps = (leftPieces st cb).take a) :
    ps.length = min a (cb.req.sgcnt - cb.descNr) ∧
      cb.offset + Qdma.bytes ps = sglLen (cb.req.sgl.take (cb.descNr + ps.length)) := by
  have hmore := h.more
  have hlen : ps.length = min a (cb.req.sgcnt - cb.descNr) := by
    rw [hps, List.length_take, length_leftPieces, h.sum_leftDescs hat]
  refine ⟨hlen, ?_⟩
  rw [← h.bytes hat (by omega), hlen, hps]
  congr 2
  rw [← h.sum_leftDescs hat, ← length_leftPieces, ← List.take_eq_take_min]

/-- When all its bytes are posted, so are all its entries. -/
theorem Partway.all_posted {st : Bool} {cb : SgtReqCb} (h : Partway st cb) (hat : AtEntry cb)
    {a : ℕ} {ps : List Piece} (hps : ps = (leftPieces st cb).take a)
    (hall : cb.offset + Qdma.bytes ps = cb.req.count) :
    cb.descNr + ps.length = cb.req.sgcnt := by
  obtain ⟨hlen, hbytes⟩ := h.pieces hat hps
  have hmore := h.more
  by_contra hne
  have hlt := sglLen_take_lt (fun sg hsg => (h.wf.1 sg hsg).1)
    (show cb.descNr + ps.length < cb.req.sgcnt by omega)
    (show cb.descNr + ps.length < cb.req.sgcnt by omega)
  unfold Request.sgcnt at hlt
  rw [List.take_length, hat.total] at hlt
  omega

/-- When bytes are left, so are entries. -/
theorem Partway.some_left {st : Bool} {cb : SgtReqCb} (h : Partway st cb) (hat : AtEntry cb)
    {a : ℕ} {ps : List Piece} (hps : ps = (leftPieces st cb).take a)
    (hmore : cb.offset + Qdma.bytes ps < cb.req.count) :
    cb.descNr + ps.length < cb.req.sgcnt := by
  obtain ⟨_, hbytes⟩ := h.pieces hat hps
  by_contra hge
  rw [List.take_of_length_le (by unfold Request.sgcnt at hge; omega), hat.total] at hbytes
  omega

/-- A request has at most as many entries as bytes. -/
theorem WellFormed.sgcnt_le {st : Bool} {req : Request} (h : WellFormed st req) :
    req.sgcnt ≤ req.count := by
  have hle : ∀ sgl : List SwSg, (∀ sg ∈ sgl, 0 < sg.len) → sgl.length ≤ sglLen sgl := by
    intro sgl
    induction sgl with
    | nil => exact fun _ => Nat.le_refl 0
    | cons sg sgl ih =>
        intro hpos
        have h1 := hpos sg (List.mem_cons_self ..)
        have h2 := ih (fun s hs => hpos s (List.mem_cons_of_mem _ hs))
        rw [List.length_cons, sglLen_cons]
        omega
  rw [← h.2]
  exact hle _ (fun sg hsg => (h.1 sg hsg).1)

/-! ## The invariant -/

/-- One unit for each descriptor the requests take in all. -/
def fullSlots (l : List SgtReqCb) : List (Option ℕ) :=
  slots (fun cb => cb.req.sgcnt) (fun cb => some cb.id) l

/-- **What has been handed to the device**, request by request, when the requests in the
order of `queued` leave only by completing. -/
structure FifoInv (queued : List ℕ) (q : Descq) : Prop where
  partway : ∀ cb ∈ q.workList, Partway q.conf.st cb
  inflight : ∀ cb ∈ q.pendList, cb.req.sgl ≠ [] → some cb.id ∈ q.held
  handed : q.regs.handed.map Desc.owner
    = fullSlots (q.finished.map Done.cb ++ q.pendList)
      ++ slots SgtReqCb.descNr (fun cb => some cb.id) q.workList
  order : (q.finished.map Done.cb ++ q.reqs).map SgtReqCb.id = queued
  success : ∀ f ∈ q.finished, f.cb.status = 0 ∧ f.cb.offset = f.cb.req.count

/-- With well-formed requests every pass stops between entries. -/
theorem FifoInv.passOk {queued : List ℕ} {q : Descq} (hinv : CreditInv q)
    (h : FifoInv queued q) : PassOk q := by
  refine ⟨stopsAtBlock_ones ?_ _, ?_⟩
  · intro d hd
    obtain ⟨cb, hcb, hd⟩ := List.mem_flatMap.mp hd
    rw [(h.partway cb hcb).leftDescs (hinv.atEntry cb hcb)] at hd
    exact (List.mem_replicate.mp hd).2
  · intro cb hcb
    have hpart := h.partway cb hcb
    have hlt := cb.req.count_lt
    have hle := hpart.wf.sgcnt_le
    have hmore := hpart.more
    rw [hpart.sum_leftDescs (hinv.atEntry cb hcb)]
    omega

/-- **Serving the head** keeps the invariant, unless the request fails. -/
theorem FifoInv.serve {queued : List ℕ} {q q' : Descq} {cb : SgtReqCb}
    {rest : List SgtReqCb} (hinv : CreditInv q) (hw : q.workList = cb :: rest)
    (h : FifoInv queued q) (hs : HeadServed q cb rest q') :
    FifoInv queued q' ∧ q'.finished = q.finished ∨
      q.finished.length < q'.finished.length := by
  have hmem : cb ∈ q.workList := hw ▸ List.mem_cons_self ..
  have hsub : ∀ c ∈ rest, c ∈ q.workList := fun c hc => hw ▸ List.mem_cons_of_mem _ hc
  have hpart := h.partway cb hmem
  have hat := hinv.atEntry cb hmem
  have htail := hinv.slots_tail hw
  have hreqs : q.reqs = q.pendList ++ cb :: rest := by
    unfold Descq.reqs
    rw [hw]
  have hhanded := h.handed
  rw [hw, slots_cons, htail, List.append_nil] at hhanded
  have horder := h.order
  rw [hreqs] at horder
  have hgrow : ∀ {l : List (Option ℕ)} {c : SgtReqCb}, c ∈ q.pendList → c.req.sgl ≠ [] →
      some c.id ∈ q.held ++ l :=
    fun hc hne => List.mem_append_left _ (h.inflight _ hc hne)
  cases hs with
  -- a request that fails is finished
  | failed _ _ _ _ =>
      refine .inr ?_
      show _ < (q.finished ++ [_]).length
      rw [List.length_append]
      exact Nat.lt_succ_self _
  -- all descriptors fit: the head goes to the end of the pending list
  | @moved d' ps hps hp hall =>
      obtain ⟨hlen, _⟩ := hpart.pieces hat hps
      obtain ⟨he, hheld, hh⟩ := hp.serves hinv.ring (by omega) rest
        (q.pendList ++ [{ cb with descNr := cb.descNr + ps.length, offset := cb.req.count }])
        q.finished
      have hconf : d'.conf = q.conf := he.conf
      have hfull := hpart.all_posted hat hps hall
      refine .inl ⟨⟨?_, ?_, ?_, ?_, h.success⟩, rfl⟩
      · show ∀ c ∈ rest, Partway d'.conf.st c
        rw [hconf]
        exact fun c hc => h.partway c (hsub c hc)
      · intro c hc hne
        rw [hheld]
        rcases List.mem_append.mp hc with hc | hc
        · exact hgrow hc hne
        · obtain rfl := List.mem_singleton.mp hc
          have hcnt : 0 < cb.req.sgcnt := List.length_pos_iff.mpr hne
          have hmore := hpart.more
          exact List.mem_append_right _ (List.mem_replicate.mpr ⟨by omega, rfl⟩)
      · show d'.regs.handed.map Desc.owner = fullSlots (q.finished.map Done.cb
          ++ (q.pendList ++ [_])) ++ slots _ _ rest
        rw [hh, hhanded, htail, List.append_nil, List.append_assoc,
          List.replicate_append_replicate, hfull, ← List.append_assoc]
        unfold fullSlots
        rw [slots_append _ _ (q.finished.map Done.cb ++ q.pendList), slots_cons, slots_nil,
          List.append_nil]
      · show ((q.finished.map Done.cb) ++ ((q.pendList ++ [_]) ++ rest)).map SgtReqCb.id = _
        rw [← horder, List.append_assoc, List.singleton_append]
        simp only [List.map_append, List.map_cons]
  -- some fit: the head stays, with what is left of it
  | @stays d' ps hps hp hall hmore' hat' =>
      obtain ⟨hlen, hbytes⟩ := hpart.pieces hat hps
      obtain ⟨he, hheld, hh⟩ := hp.serves hinv.ring (by omega)
        ({ cb with descNr := cb.descNr + ps.length, offset := cb.offset + bytes ps } :: rest)
        q.pendList q.finished
      have hconf : d'.conf = q.conf := he.conf
      refine .inl ⟨⟨?_, ?_, ?_, ?_, h.success⟩, rfl⟩
      · show ∀ c ∈ _ :: rest, Partway d'.conf.st c
        rw [hconf]
        intro c hc
        rcases List.mem_cons.mp hc with rfl | hc
        · exact ⟨hpart.wf, hbytes, .inr (hpart.some_left hat hps hmore')⟩
        · exact h.partway c (hsub c hc)
      · intro c hc hne
        rw [hheld]
        exact hgrow hc hne
      · show d'.regs.handed.map Desc.owner = fullSlots (q.finished.map Done.cb ++ q.pendList)
          ++ slots _ _ (_ :: rest)
        rw [hh, hhanded, slots_cons, htail, List.append_nil, List.append_assoc,
          List.replicate_append_replicate]
      · show ((q.finished.map Done.cb) ++ (q.pendList ++ _ :: rest)).map SgtReqCb.id = _
        rw [← horder]
        simp only [List.map_append, List.map_cons]

/-- **A writeback** keeps the invariant. -/
theorem FifoInv.settled {queued : List ℕ} {q : Descq} (hinv : CreditInv q)
    (h : FifoInv queued q) : FifoInv queued q.settled := by
  obtain ⟨done, tail, hpend, hfin, hrest⟩ := settled_spec q
  obtain ⟨hids, _⟩ := settled_ids hrest hpend
  have hcbs : q.settled.finished.map Done.cb
      = q.finished.map Done.cb ++ done.map (fun cb => cb.finish 0) := by
    rw [hfin, List.map_append, List.map_map]
    rfl
  have hdone : fullSlots (done.map (fun cb => cb.finish 0)) = fullSlots done := by
    unfold fullSlots
    exact slots_map _ _ _ done (fun _ _ => ⟨rfl, rfl⟩)
  have hdoneIds : (done.map (fun cb => cb.finish 0)).map SgtReqCb.id
      = done.map SgtReqCb.id := by
    rw [List.map_map]
    rfl
  have hledger : q.settled.held = q.settled.owed.drop q.settled.credit := hinv.settled.ledger
  -- a pending request with descriptors in flight has descriptors charged to it
  have hcharged : ∀ c ∈ q.pendList, c.req.sgl ≠ [] → 0 < c.descNr := by
    intro c hc hne
    obtain ⟨b, hb, hid, hpos⟩ := hinv.held_owner (h.inflight c hc hne)
    have hbc : b = c := List.inj_on_of_nodup_map hinv.nodup hb
      (List.mem_append_left _ hc) hid
    exact hbc ▸ hpos
  have howedMem : ∀ c ∈ q.settled.pendList, 0 < c.descNr → q.settled.credit = 0 →
      some c.id ∈ q.settled.held := by
    intro c hc hpos hcr
    rw [hledger, hcr, List.drop_zero]
    exact (mem_slots _ _).mpr ⟨c, List.mem_append_left _ hc, rfl, hpos⟩
  refine ⟨h.partway, ?_, ?_, ?_, ?_⟩
  · intro c hc hne
    rcases hrest with ⟨h1, h2⟩ | ⟨a, t, k, rfl, hk, h3, h4⟩
    · rw [h1] at hc
      have hcr := h2.resolve_left (List.ne_nil_of_mem hc)
      exact howedMem c (h1 ▸ hc)
        (hcharged c (hpend ▸ List.mem_append_right _ hc) hne) hcr
    · refine howedMem c hc ?_ h4
      rw [h3] at hc
      rcases List.mem_cons.mp hc with rfl | hc
      · show 0 < a.descNr - k
        omega
      · exact hcharged c
          (hpend ▸ List.mem_append_right _ (List.mem_cons_of_mem _ hc)) hne
  · have hfull : fullSlots q.settled.pendList = fullSlots tail := by
      rcases hrest with ⟨h1, _⟩ | ⟨a, t, k, rfl, _, h3, _⟩
      · rw [h1]
      · rw [h3]
        rfl
    show q.regs.handed.map Desc.owner
      = fullSlots (q.settled.finished.map Done.cb ++ q.settled.pendList) ++ _
    rw [h.handed, hcbs, hpend]
    unfold fullSlots at hfull hdone ⊢
    simp only [slots_append, hfull, hdone, List.append_assoc]
    rfl
  · have horder := h.order
    unfold Descq.reqs at horder ⊢
    rw [← horder, hcbs, hpend]
    simp only [List.map_append, hids, hdoneIds, List.append_assoc]
    rfl
  · intro f hf
    rw [hfin] at hf
    rcases List.mem_append.mp hf with hf | hf
    · exact h.success f hf
    · obtain ⟨cb, hcb, rfl⟩ := List.mem_map.mp hf
      have hoff := hinv.posted cb (hpend ▸ List.mem_append_left _ hcb)
      refine ⟨?_, hoff⟩
      simp only [SgtReqCb.finish, hoff, ne_eq, not_true, and_false, if_false]

/-! ## Runs -/

/-- Steps under which requests are well formed and leave the lists only by completing: no
pass fails a request and no wait gives one up. -/
def Completing (s : Sys) : Label → Prop
  | .submit req _ => WellFormed s.q.conf.st req
  | .worker => (qdmaThreadWrkProc s.q).finished.length = s.q.finished.length
  | .wait id => (s.q.doneCb id).isSome
  | _ => True

instance (s : Sys) (l : Label) : Decidable (Completing s l) :=
  match l with
  | .submit _ _ => inferInstanceAs (Decidable (WellFormed _ _))
  | .worker => inferInstanceAs (Decidable (_ = _))
  | .wait _ => inferInstanceAs (Decidable (_ = _))
  | .hw _ | .wb => inferInstanceAs (Decidable True)

/-- What such a run maintains. -/
structure FifoRun (s : Sys) : Prop where
  credit : CreditInv s.q
  fifo : FifoInv s.queued s.q
  rising : s.queued.Pairwise (· < ·)
  fresh : ∀ id ∈ s.queued, id < s.nreq

theorem FifoRun.submit {s : Sys} (h : FifoRun s) (req : Request) (mapped : Bool)
    (hwf : WellFormed s.q.conf.st req) : FifoRun (s.submit req mapped) := by
  rcases submit_cases s req mapped with ⟨rv, heq⟩ | ⟨w, r, heq, _⟩
  · rw [heq]
    exact ⟨h.credit, h.fifo, h.rising, fun id hid => Nat.lt_succ_of_lt (h.fresh id hid)⟩
  · rw [heq]
    have hnew : s.nreq ∉ s.q.reqs.map SgtReqCb.id := by
      intro hin
      have hmem : s.nreq ∈ s.queued := by
        rw [← h.fifo.order, List.map_append]
        exact List.mem_append_right _ hin
      exact Nat.lt_irrefl _ (h.fresh _ hmem)
    refine ⟨h.credit.enqueue hnew hwf.2, ⟨?_, h.fifo.inflight, ?_, ?_, h.fifo.success⟩, ?_, ?_⟩
    · intro cb hcb
      rcases List.mem_append.mp hcb with hcb | hcb
      · exact h.fifo.partway cb hcb
      · rw [List.mem_singleton.mp hcb]
        exact ⟨hwf, rfl, .inl rfl⟩
    · show s.q.regs.handed.map Desc.owner = _ ++ slots _ _ (s.q.workList ++ [_])
      rw [slots_append, slots_cons]
      exact h.fifo.handed.trans (by rw [← List.append_assoc]; exact (List.append_nil _).symm)
    · show (s.q.finished.map Done.cb ++ (s.q.enqueue _).reqs).map SgtReqCb.id = _
      rw [enqueue_reqs, ← List.append_assoc, List.map_append, h.fifo.order]
      rfl
    · refine List.pairwise_append.mpr ⟨h.rising, List.pairwise_singleton _ _, ?_⟩
      intro a ha b hb
      rw [List.mem_singleton.mp hb]
      exact h.fresh a ha
    · intro id hid
      rcases List.mem_append.mp hid with hid | hid
      · exact Nat.lt_succ_of_lt (h.fresh id hid)
      · rw [List.mem_singleton.mp hid]
        exact Nat.lt_succ_self _

theorem FifoRun.worker {s : Sys} (h : FifoRun s)
    (hdone : (qdmaThreadWrkProc s.q).finished.length = s.q.finished.length) :
    FifoRun (s.step .worker) := by
  obtain ⟨hcredit, hfifo⟩ := pass_rule
    (P := fun q => FifoInv s.queued q ∧ q.finished = s.q.finished ∨
      s.q.finished.length < q.finished.length)
    (by
      intro q cb rest q' hinv _ hw _ hq hs
      have hle : q.finished.length ≤ q'.finished.length := by
        cases hs with
        | failed _ _ _ _ =>
            show _ ≤ (q.finished ++ [_]).length
            rw [List.length_append]
            exact Nat.le_add_right _ _
        | moved _ _ _ => exact le_rfl
        | stays _ _ _ _ _ => exact le_rfl
      rcases hq with ⟨hq, hsame⟩ | hlt
      · rw [← hsame]
        exact hq.serve hinv hw hs
      · exact .inr (by omega))
    h.credit (h.fifo.passOk h.credit) (.inl ⟨h.fifo, rfl⟩)
  rcases hfifo with ⟨hfifo, _⟩ | hlt
  · exact ⟨hcredit, hfifo, h.rising, h.fresh⟩
  · omega

/-- **Every such step keeps the invariant**, as long as the credits a writeback sums up fit
32 bits. -/
theorem fifoRun_step {s : Sys} {l : Label} (h : FifoRun s) (hlegal : Legal s l)
    (hc : Completing s l) (hwb : l = .wb → s.q.reported + s.q.credit < 2 ^ 32) :
    FifoRun (s.step l) := by
  cases l with
  | submit req mapped => exact h.submit req mapped hc
  | worker => exact h.worker hc
  | hw c =>
      have hfifo : FifoInv s.queued (s.hw c).q :=
        ⟨h.fifo.partway, h.fifo.inflight, h.fifo.handed, h.fifo.order, h.fifo.success⟩
      exact ⟨h.credit.hw hlegal, hfifo, h.rising, h.fresh⟩
  | wb =>
      show FifoRun { s with q := descqMmNH2cWb s.q }
      rcases h.credit.wb_eq (hwb rfl) with ⟨_, heq⟩ | ⟨_, heq⟩
      · rw [heq]
        exact h
      · rw [heq]
        exact ⟨h.credit.settled, h.fifo.settled h.credit, h.rising, h.fresh⟩
  | wait id =>
      obtain ⟨cb, hcb⟩ := Option.isSome_iff_exists.mp hc
      have heq : (s.wait id).q = s.q := by
        unfold Sys.wait qdmaRequestWaitForCmpl
        rw [hcb]
        rfl
      refine ⟨?_, ?_, h.rising, h.fresh⟩
      · show CreditInv (s.wait id).q
        rw [heq]
        exact h.credit
      · show FifoInv s.queued (s.wait id).q
        rw [heq]
        exact h.fifo

/-- Credits that leave room for a ring more: an `unsigned short` counts the entries of a
request. -/
structure CountInv (s : Sys) : Prop where
  run : FifoRun s
  credit : s.q.credit + s.q.conf.rngsz ≤ 2 ^ 32

theorem CountInv.noWrap {s : Sys} (h : CountInv s) : s.q.reported + s.q.credit < 2 ^ 32 := by
  have h1 := h.run.credit.ring.one_le
  have hlt : s.q.reported < s.q.conf.rngsz := dist_lt (by omega)
  have hcr := h.credit
  omega

/-- Credits are left over only when nothing is pending: they belong to the request being
served. -/
theorem CountInv.settled {s : Sys} (h : CountInv s) :
    s.q.settled.credit + s.q.conf.rngsz ≤ 2 ^ 32 := by
  obtain ⟨done, tail, hpend, _, hrest⟩ := settled_spec s.q
  have hmax := h.run.credit.ring.le_max
  rcases Nat.eq_zero_or_pos s.q.settled.credit with h0 | hpos
  · omega
  · have hnil : s.q.settled.pendList = [] := by
      rcases hrest with ⟨h1, h2⟩ | ⟨_, _, _, _, _, _, h4⟩
      · rw [h1]
        exact h2.resolve_right (by omega)
      · omega
    have hle := h.run.credit.settled.credit_le
    unfold Descq.owed Descq.reqs at hle
    rw [hnil, List.nil_append] at hle
    change s.q.settled.credit
      ≤ (slots SgtReqCb.descNr (fun cb => some cb.id) s.q.workList).length at hle
    cases hw : s.q.workList with
    | nil =>
        rw [hw, slots_nil, List.length_nil] at hle
        omega
    | cons cb rest =>
        have hmem : cb ∈ s.q.workList := hw ▸ List.mem_cons_self ..
        have hcnt : cb.req.sgcnt < 2 ^ 16 := cb.req.sgcnt_lt
        have hmore := (h.run.fifo.partway cb hmem).more
        rw [hw, slots_cons, h.run.credit.slots_tail hw, List.append_nil,
          List.length_replicate] at hle
        omega

theorem wrkProc_credit {q : Descq} (hinv : CreditInv q) (hok : PassOk q) :
    (qdmaThreadWrkProc q).credit = q.credit := by
  refine (pass_rule (P := fun q' => q'.credit = q.credit) ?_ hinv hok rfl).2
  intro r cb rest q' _ _ _ _ hq hs
  cases hs with
  | failed _ _ _ _ => exact hq
  | moved _ hp _ =>
      rw [← hq, hp.frame]
      rfl
  | stays _ hp _ _ _ =>
      rw [← hq, hp.frame]
      rfl

theorem countInv_step (s : Sys) (l : Label) (h : CountInv s)
    (hok : Legal s l ∧ Completing s l) : CountInv (s.step l) := by
  obtain ⟨hlegal, hc⟩ := hok
  have hrun := fifoRun_step h.run hlegal hc (fun _ => h.noWrap)
  cases l with
  | submit req mapped =>
      refine ⟨hrun, ?_⟩
      rcases submit_cases s req mapped with ⟨rv, heq⟩ | ⟨w, r, heq, _⟩
      · rw [Sys.step, heq]
        exact h.credit
      · rw [Sys.step, heq]
        exact h.credit
  | worker =>
      -- a pass hands out descriptors, it takes no credit
      have hpass := h.run.fifo.passOk h.run.credit
      obtain ⟨k, hk⟩ := wrkProc_extends h.run.credit.ring
      have hconf : (s.step .worker).q.conf = s.q.conf := hk.conf
      refine ⟨hrun, ?_⟩
      rw [hconf]
      show (qdmaThreadWrkProc s.q).credit + _ ≤ _
      rw [wrkProc_credit h.run.credit hpass]
      exact h.credit
  | hw c => exact ⟨hrun, h.credit⟩
  | wb =>
      refine ⟨hrun, ?_⟩
      show (descqMmNH2cWb s.q).credit + (descqMmNH2cWb s.q).conf.rngsz ≤ _
      rcases h.run.credit.wb_eq h.noWrap with ⟨_, heq⟩ | ⟨_, heq⟩
      · rw [heq]
        exact h.credit
      · rw [heq]
        exact h.settled
  | wait id =>
      obtain ⟨cb, hcb⟩ := Option.isSome_iff_exists.mp hc
      have heq : (s.step (.wait id)).q = s.q := by
        show (s.wait id).q = s.q
        unfold Sys.wait qdmaRequestWaitForCmpl
        rw [hcb]
        rfl
      refine ⟨hrun, ?_⟩
      rw [heq]
      exact h.credit

theorem Started.countInv {q : Descq} (h : Started q) : CountInv { q := q } := by
  obtain ⟨hring, hw, hp, hf, hc, hh, _⟩ := h.spec
  have hmax := hring.le_max
  have hfifo : FifoInv [] q := by
    refine ⟨?_, ?_, ?_, ?_, ?_⟩
    · rw [hw]
      exact fun _ hcb => absurd hcb List.not_mem_nil
    · rw [hp]
      exact fun _ hcb => absurd hcb List.not_mem_nil
    · rw [hh, hf, hp, hw]
      rfl
    · unfold Descq.reqs
      rw [hf, hp, hw]
      rfl
    · rw [hf]
      exact fun _ hf => absurd hf List.not_mem_nil
  refine ⟨⟨h.creditInv, hfifo, List.Pairwise.nil, fun _ hid => absurd hid List.not_mem_nil⟩, ?_⟩
  show q.credit + q.conf.rngsz ≤ 2 ^ 32
  omega

/-! ## Results -/

/-- The descriptors the device has been seen to consume. -/
def Descq.consumed (q : Descq) : List Desc :=
  q.regs.handed.take (q.regs.handed.length - dist q.conf.rngsz q.cidx q.pidx)

/-- What was handed over is consumed or in flight. -/
theorem consumed_append {q : Descq} (h : RingInv q) :
    q.consumed ++ stretch q.conf.rngsz q.desc.slot q.cidx q.pidx = q.regs.handed := by
  obtain ⟨pre, hpre⟩ := h.inflight
  have hcut : q.consumed = pre := by
    unfold Descq.consumed
    rw [hpre, List.length_append, length_stretch, Nat.add_sub_cancel, List.take_left']
    rfl
  rw [hcut, hpre]

theorem consumed_append_held {q : Descq} (h : RingInv q) :
    q.consumed.map Desc.owner ++ q.held = q.regs.handed.map Desc.owner := by
  rw [held_eq, ← List.map_append, consumed_append h]

/-- A request on the lists or handed back is complete exactly when all its descriptors
were consumed. -/
theorem complete_iff {s : Sys} (h : FifoRun s) {cb : SgtReqCb}
    (hcb : cb ∈ s.q.finished.map Done.cb ++ s.q.reqs) (hne : cb.req.sgl ≠ []) :
    cb.id ∈ s.q.finished.map (fun f => f.cb.id) ↔
      (s.q.consumed.map Desc.owner).count (some cb.id) = cb.req.sgcnt := by
  have hnd : ((s.q.finished.map Done.cb ++ s.q.reqs).map SgtReqCb.id).Nodup := by
    rw [h.fifo.order]
    exact h.rising.imp (fun hlt => Nat.ne_of_lt hlt)
  have hsome : ∀ {l : List SgtReqCb}, (l.map SgtReqCb.id).Nodup →
      (l.map (fun c => some c.id)).Nodup := by
    intro l hl
    rw [show (fun c : SgtReqCb => some c.id) = some ∘ SgtReqCb.id from rfl, ← List.map_map]
    exact hl.map (Option.some_injective _)
  have hpos : 0 < cb.req.sgcnt := List.length_pos_iff.mpr hne
  have hsplit := congrArg (List.count (some cb.id)) (consumed_append_held h.credit.ring)
  rw [List.count_append, h.fifo.handed, List.count_append] at hsplit
  have hnd' := hnd
  unfold Descq.reqs at hcb hnd hnd'
  rw [← List.append_assoc] at hcb hnd'
  rw [List.map_append] at hnd'
  obtain ⟨hndl, hndr, hdisj⟩ := List.nodup_append.mp hnd'
  have hmem : ∀ {l : List SgtReqCb} {c : SgtReqCb}, some c.id ∈ l.map (fun c => some c.id) →
      c.id ∈ l.map SgtReqCb.id := by
    intro l c hin
    obtain ⟨b, hb, hid⟩ := List.mem_map.mp hin
    exact Option.some.inj hid ▸ List.mem_map_of_mem hb
  rw [List.map_append] at hnd
  have hfin : s.q.finished.map (fun f => f.cb.id)
      = (s.q.finished.map Done.cb).map SgtReqCb.id := by
    rw [List.map_map]
    rfl
  rw [hfin]
  rcases List.mem_append.mp hcb with hl | hr
  · -- completed or pending: all descriptors were handed over
    have hfull : (fullSlots (s.q.finished.map Done.cb ++ s.q.pendList)).count (some cb.id)
        = cb.req.sgcnt := by
      unfold fullSlots
      exact count_slots (fun cb => cb.req.sgcnt) (fun cb => some cb.id) (hsome hndl) hl
    have hzero := count_slots_of_notMem SgtReqCb.descNr (fun cb => some cb.id)
      (l := s.q.workList) (k := some cb.id)
      (fun hin => hdisj _ (List.mem_map_of_mem hl) _ (hmem hin) rfl)
    rw [hfull, hzero] at hsplit
    rcases List.mem_append.mp hl with hf | hp
    · have hgone : cb.id ∉ s.q.reqs.map SgtReqCb.id := fun hin =>
        (List.nodup_append.mp hnd).2.2 _ (List.mem_map_of_mem hf) _ hin rfl
      have hheld := List.count_eq_zero_of_not_mem (h.credit.not_held hgone)
      exact ⟨fun _ => by omega, fun _ => List.mem_map_of_mem hf⟩
    · have hheld := List.count_pos_iff.mpr (h.fifo.inflight cb hp hne)
      refine ⟨fun hin => ?_, fun _ => by omega⟩
      exact absurd rfl ((List.nodup_append.mp hnd).2.2 _ hin _
        (List.mem_map_of_mem (List.mem_append_left _ hp)))
  · -- still being served: not all descriptors were handed over
    have hpart : (slots SgtReqCb.descNr (fun cb => some cb.id) s.q.workList).count (some cb.id)
        = cb.descNr :=
      count_slots SgtReqCb.descNr (fun cb => some cb.id) (hsome hndr) hr
    have hzero : (fullSlots (s.q.finished.map Done.cb ++ s.q.pendList)).count (some cb.id)
        = 0 := by
      unfold fullSlots
      exact count_slots_of_notMem (fun cb : SgtReqCb => cb.req.sgcnt) (fun cb => some cb.id)
        (fun hin => hdisj _ (hmem hin) _ (List.mem_map_of_mem hr) rfl)
    have hmore := (h.fifo.partway cb hr).more
    rw [hpart, hzero] at hsplit
    refine ⟨fun hin => ?_, fun _ => by omega⟩
    exact absurd rfl ((List.nodup_append.mp hnd).2.2 _ hin _
      (List.mem_map_of_mem (List.mem_append_right _ hr)))

/-- **Credit conservation and completion in order.**  In a run of well-formed requests that
leave the lists only by completing: the descriptors charged, less the credits, are those in
flight; the requests handed back, pending and waiting are, in this order, those queued,
each once; every completion is a success; and a request is complete exactly when the last
of its descriptors has been consumed. -/
theorem credit_fifo {q : Descq} (h : Started q) {evs : List Label} {s : Sys}
    (hrun : Run Sys.step (fun s l => Legal s l ∧ Completing s l)
      { q := q } evs s) :
    ((s.q.pendList.map SgtReqCb.descNr).sum + (s.q.workList.map SgtReqCb.descNr).sum
      = s.q.credit + (s.q.pidx + s.q.conf.rngsz - s.q.cidx) % s.q.conf.rngsz) ∧
    (s.q.finished.map (fun f => f.cb.id) ++ s.q.pendList.map SgtReqCb.id
      ++ s.q.workList.map SgtReqCb.id = s.queued ∧ s.queued.Pairwise (· < ·)) ∧
    (∀ f ∈ s.q.finished, f.cb.status = 0 ∧ f.cb.offset = f.cb.req.count) ∧
    ∀ cb ∈ s.q.finished.map Done.cb ++ s.q.pendList ++ s.q.workList, cb.req.sgl ≠ [] →
      (cb.id ∈ s.q.finished.map (fun f => f.cb.id) ↔
        (s.q.consumed.map Desc.owner).count (some cb.id) = cb.req.sgcnt) := by
  have hinv := (hrun.invariant h.countInv countInv_step).run
  refine ⟨?_, ⟨?_, hinv.rising⟩, hinv.fifo.success, ?_⟩
  · have hlen := hinv.credit.length_owed
    unfold Descq.owed Descq.reqs at hlen
    rw [length_slots, List.map_append, List.sum_append] at hlen
    exact hlen
  · have horder := hinv.fifo.order
    unfold Descq.reqs at horder
    rw [List.map_append, List.map_append, List.map_map] at horder
    rw [← horder, List.append_assoc]
    rfl
  · intro cb hcb hne
    refine complete_iff hinv ?_ hne
    unfold Descq.reqs
    rwa [← List.append_assoc]

/-- Three writes on three slots, the last of them after a wrap. -/
theorem credit_fifo_wrap :
    let s := [Label.submit (writeReq 8) true, .submit (writeReq 8) true, .worker, .hw 1, .wb,
      .submit (writeReq 8) true, .worker, .hw 2, .wb].foldl Sys.step (startedSys true 4)
    s.q.finished.map (fun f => f.cb.id) = [0, 1] ∧
      (s.q.pendList.map SgtReqCb.descNr).sum + (s.q.workList.map SgtReqCb.descNr).sum
        = s.q.credit + (s.q.pidx + s.q.conf.rngsz - s.q.cidx) % s.q.conf.rngsz :=
  ⟨by decide +kernel,
    (credit_fifo (started_startedSys true) (Run.of_admits _ (by decide +kernel))).1⟩

end Qdma
