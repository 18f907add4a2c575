/-
# Reports on memory-mapped and ST H2C queues

The books of such a queue speak of the descriptors handed to the device: posting hands over
the bytes of its pieces (`Posted.postedBytes`), and a pass and a writeback are moves of the
books (`HeadServed.moves`, `moves_settled`).  With the ledger of credits all descriptors of a
request are consumed once it is off the lists (`TxInv.moved`).
-/
import Qdma.Books

namespace Qdma

open RingIndex Blocks Exec

/-! ## Descriptors handed over -/

theorem descBytes_append (st : Bool) (a b : List Desc) (id : ℕ) :
    descBytes st (a ++ b) id = descBytes st a id + descBytes st b id := by
  unfold descBytes
  rw [List.filter_append, List.map_append, List.sum_append]

/-- Descriptors of one request. -/
theorem descBytes_owned {st : Bool} {ds : List Desc} {id : ℕ}
    (h : ∀ d ∈ ds, d.owner = some id) (i : ℕ) :
    descBytes st ds i = if i = id then (ds.map (Desc.len st)).sum else 0 := by
  unfold descBytes
  split_ifs with hi
  · rw [List.filter_eq_self.mpr (fun d hd => decide_eq_true (by rw [h d hd, hi]))]
  · rw [List.filter_eq_nil_iff.mpr (fun d hd hin => ?_)]
    · rfl
    · have heq := of_decide_eq_true hin
      rw [h d hd] at heq
      exact hi (Option.some.inj heq).symm

theorem descBytes_none {st : Bool} {ds : List Desc} {id : ℕ}
    (h : some id ∉ ds.map Desc.owner) : descBytes st ds id = 0 := by
  unfold descBytes
  rw [List.filter_eq_nil_iff.mpr (fun d hd hin => ?_)]
  · rfl
  · exact h (of_decide_eq_true hin ▸ List.mem_map_of_mem hd)

/-- The bytes of the descriptors handed over for a request. -/
def Descq.postedBytes (q : Descq) : ℕ → ℕ := descBytes q.conf.st q.regs.handed

/-- **Posting** hands over the bytes of its pieces. -/
theorem Posted.postedBytes {q d' : Descq} {cb : SgtReqCb} {ps : List Piece} (h : RingInv q)
    (hp : Posted q d' cb ps) (hlen : ps.length ≤ q.avail) (w p : List SgtReqCb)
    (f : List Done) (i : ℕ) :
    ({ d' with avail := d'.avail - ps.length }.withLists w p f).postedBytes i
      = q.postedBytes i + if i = cb.id then bytes ps else 0 := by
  have havail := h.avail
  have h1 := h.one_le
  obtain ⟨he, _, howners⟩ := hp.serves h hlen w p f
  have hconf : d'.conf = q.conf := he.conf
  have hhanded : d'.regs.handed = q.regs.handed ++ stretch q.conf.rngsz d'.desc.slot q.pidx d'.pidx :=
    he.handed
  have hnew : (stretch q.conf.rngsz d'.desc.slot q.pidx d'.pidx).map Desc.owner
      = List.replicate ps.length (some cb.id) := by
    rw [hhanded, List.map_append] at howners
    exact List.append_cancel_left howners
  have hown : ∀ d ∈ stretch q.conf.rngsz d'.desc.slot q.pidx d'.pidx, d.owner = some cb.id := by
    intro d hd
    have hin := List.mem_map_of_mem (f := Desc.owner) hd
    rw [hnew] at hin
    exact List.eq_of_mem_replicate hin
  -- piece by piece, the descriptors carry the lengths
  have hlens : (stretch q.conf.rngsz d'.desc.slot q.pidx d'.pidx).map (Desc.len q.conf.st)
      = ps.map Piece.len := by
    refine List.ext_getElem ?_ ?_
    · rw [List.length_map, length_stretch, List.length_map, hp.pidx,
        dist_adv h.pidx_lt (by omega)]
    · intro j _ hj
      rw [List.length_map] at hj
      rw [List.getElem_map, getElem_stretch, List.getElem_map]
      exact hp.len j hj
  show descBytes d'.conf.st d'.regs.handed i = _
  rw [hconf, hhanded, descBytes_append, descBytes_owned hown, hlens]
  rfl

/-! ## Serving and settling -/

/-- **Serving the head** of `work_list` moves the books. -/
theorem HeadServed.moves {q q' : Descq} {cb : SgtReqCb} {rest : List SgtReqCb}
    (h : CreditInv q) (hw : q.workList = cb :: rest) (hs : HeadServed q cb rest q')
    (hcount : q.conf.st = false → cb.req.count ≠ 0) :
    Moves (SgtReqCb.Agrees false) q.postedBytes q'.postedBytes q.reqs q'.reqs q.finished
      q'.finished := by
  have hmem : cb ∈ q.reqs := List.mem_append_right _ (hw ▸ List.mem_cons_self ..)
  have hreqs : q.reqs = q.pendList ++ cb :: rest := by
    unfold Descq.reqs
    rw [hw]
  have hnd := h.nodup
  rw [hreqs] at hnd
  obtain ⟨hp, hr⟩ := nodup_work_head hnd
  have hothers : ∀ a, a ∈ q.pendList ∨ a ∈ rest → a ∈ q.reqs ∧ a.id ≠ cb.id := by
    rw [hreqs]
    rintro a (ha | ha)
    · exact ⟨List.mem_append_left _ ha, fun heq => hp (heq ▸ List.mem_map_of_mem ha)⟩
    · exact ⟨List.mem_append_right _ (List.mem_cons_of_mem _ ha),
        fun heq => hr (heq ▸ List.mem_map_of_mem ha)⟩
  have hfollows : ∀ {sent' : ℕ → ℕ} {ps : List Piece} {n b : ℕ},
      sent' cb.id = q.postedBytes cb.id + bytes ps → cb.offset + bytes ps = b →
      Follows (SgtReqCb.Agrees false) q.postedBytes sent' cb
        { cb with descNr := n, offset := b } := by
    intro sent' ps n b hsent hb
    refine ⟨rfl, rfl, fun hbal => ?_⟩
    have hbal' : q.postedBytes cb.id = cb.offset := hbal
    show sent' cb.id = b
    omega
  cases hs with
  | @failed rv hrv hst hnil hnr =>
      -- no piece is left, so no byte is
      have hat := h.atEntry cb (hw ▸ List.mem_cons_self ..)
      have hsum := sglLen_leftEntries hat
      have hzero : sglLen (leftEntries cb) = 0 := by
        rw [← bytes_sglPieces q.conf.st]
        unfold leftPieces at hnil
        rw [hnil, bytes_nil]
      have hmore := hat.more
      exact absurd (by omega) (hcount hst)
  | @moved d' ps hps hp' hall =>
      have hlen : ps.length ≤ q.avail := by
        rw [hps, List.length_take]
        omega
      have hsent := hp'.postedBytes h.ring hlen rest
        (q.pendList ++ [{ cb with descNr := cb.descNr + ps.length, offset := cb.req.count }])
        q.finished
      apply Moves.replace hmem (hfollows (by rw [hsent, if_pos rfl]) hall)
      · intro i hi
        rw [hsent, if_neg hi, Nat.add_zero]
      · intro a ha
        rcases List.mem_append.mp ha with ha | ha
        · rcases List.mem_append.mp ha with ha | ha
          · exact .inr (hothers a (.inl ha))
          · exact .inl (List.mem_singleton.mp ha)
        · exact .inr (hothers a (.inr ha))
      · intro a ha
        rw [hreqs] at ha
        simp only [Descq.reqs, Descq.withLists, List.map_append, List.mem_append,
          List.map_cons, List.map_nil, List.mem_singleton]
        rcases List.mem_append.mp ha with ha | ha
        · exact .inl (.inl (List.mem_map_of_mem ha))
        · rcases List.mem_cons.mp ha with rfl | ha
          · exact .inl (.inr rfl)
          · exact .inr (List.mem_map_of_mem ha)
  | @stays d' ps hps hp' hfull hmore hat =>
      have hsent := hp'.postedBytes h.ring hfull.le
        ({ cb with descNr := cb.descNr + ps.length, offset := cb.offset + bytes ps } :: rest)
        q.pendList q.finished
      apply Moves.replace hmem (hfollows (by rw [hsent, if_pos rfl]) rfl)
      · intro i hi
        rw [hsent, if_neg hi, Nat.add_zero]
      · intro a ha
        rcases List.mem_append.mp ha with ha | ha
        · exact .inr (hothers a (.inl ha))
        · exact (List.mem_cons.mp ha).imp_right (fun ha => hothers a (.inr ha))
      · intro a ha
        rw [hreqs] at ha
        simp only [Descq.reqs, Descq.withLists, List.map_append, List.mem_append,
          List.map_cons, List.mem_cons]
        rcases List.mem_append.mp ha with ha | ha
        · exact .inl (List.mem_map_of_mem ha)
        · rcases List.mem_cons.mp ha with rfl | ha
          · exact .inr (.inl rfl)
          · exact .inr (.inr (List.mem_map_of_mem ha))

/-- **A writeback** hands back requests that are posted whole. -/
theorem moves_settled {q : Descq} (h : CreditInv q) :
    Moves (SgtReqCb.Agrees false) q.postedBytes q.settled.postedBytes q.reqs q.settled.reqs
      q.finished q.settled.finished := by
  obtain ⟨done, tail, hpend, hfin, hrest⟩ := settled_spec q
  obtain ⟨hids, hsame⟩ := settled_ids hrest hpend
  have hnd := h.nodup
  unfold Descq.reqs at hnd
  rw [hpend, List.append_assoc, List.map_append] at hnd
  -- what is finished and what is left have different ids
  have hdisj := (List.nodup_append.mp hnd).2.2
  have hids' : q.settled.reqs.map SgtReqCb.id = (tail ++ q.workList).map SgtReqCb.id := by
    unfold Descq.reqs
    rw [List.map_append, hids, List.map_append]
    rfl
  constructor
  · intro c hc
    rcases List.mem_append.mp hc with hc | hc
    · obtain ⟨b, hb, hreq, hoff, hid⟩ := hsame c hc
      refine ⟨b, List.mem_append_left _ hb, hid, hreq, fun hbal => ?_⟩
      have hbal' : q.postedBytes b.id = b.offset := hbal
      show q.postedBytes b.id = c.offset
      rw [hbal', hoff]
    · exact ⟨c, List.mem_append_right _ hc, .idle c rfl⟩
  · intro f hf
    rw [hfin] at hf
    refine (List.mem_append.mp hf).imp_right (fun hf => ?_)
    obtain ⟨cb, hcb, rfl⟩ := List.mem_map.mp hf
    have hin : cb ∈ q.pendList := hpend ▸ List.mem_append_left _ hcb
    have hposted := h.posted cb hin
    refine ⟨⟨cb, List.mem_append_left _ hin, rfl, rfl, fun hbal => hbal⟩, ⟨?_, ?_⟩, ?_⟩
    · show (if cb.req.fpDone ∧ cb.offset ≠ cb.req.count then einval else (0 : ℤ)) = 0
      rw [if_neg (fun hne => hne.2 hposted)]
    · intro n hn
      exact Eq.trans (show n = cb.offset from hn) hposted
    · rw [hids']
      exact fun hgone => hdisj _ (List.mem_map_of_mem hcb) _ hgone rfl
  · intro b hb
    rw [hids']
    unfold Descq.reqs at hb
    rw [hpend, List.append_assoc] at hb
    rcases List.mem_append.mp hb with hb | hb
    · refine .inr (List.mem_map.mpr ⟨{ cb := b.finish 0, held := q.caughtUp.held }, ?_, rfl⟩)
      rw [hfin]
      exact List.mem_append_right _ (List.mem_map.mpr ⟨b, hb, rfl⟩)
    · exact .inl (List.mem_map_of_mem hb)
  · intro f hf
    rw [hfin]
    exact List.mem_append_left _ hf
  · exact fun _ _ => rfl

/-! ## Memory-mapped and ST H2C queues -/

/-- **The books of a memory-mapped or ST H2C queue.** -/
structure TxInv (x : Desk) : Prop extends DeskInv x where
  kind : x.sys.q.isRx = false
  credit : CreditInv x.sys.q
  released : Released x.sys.nreq x.sys.q
  parked : x.sys.parked = []
  count : x.sys.q.conf.st = false → ∀ cb ∈ x.sys.q.reqs, cb.req.count ≠ 0

theorem sent_tx {x : Desk} (h : x.sys.q.isRx = false) : x.sent = x.sys.q.postedBytes := by
  funext i
  unfold Desk.sent
  rw [if_neg (by rw [h]; decide)]
  rfl

theorem TxInv.safe {x : Desk} (h : TxInv x) : SafeInv x.sys.toSys :=
  ⟨h.credit, h.released, fun _ hr => absurd hr List.not_mem_nil⟩

/-- **Step lemma** of the steps that serve requests. -/
theorem TxInv.moves {x : Desk} (h : TxInv x) {l : QLabel} (hl : l.Traffic)
    (hsame : SameNotes x (x.step l)) (hsafe : CreditInv (x.step l).sys.q ∧
      Released (x.step l).sys.nreq (x.step l).sys.q)
    (hm : Moves (SgtReqCb.Agrees false) x.sys.q.postedBytes (x.step l).sys.q.postedBytes
      x.sys.q.reqs (x.step l).sys.q.reqs x.sys.q.finished (x.step l).sys.q.finished) :
    TxInv (x.step l) := by
  have hkind : (x.step l).sys.q.isRx = false := (isRx_step x hl).trans h.kind
  have hst : (x.step l).sys.q.conf = x.sys.q.conf := congrArg Prod.fst (fixed_step x.sys hl)
  refine ⟨h.toDeskInv.moves (h.ids.step l) hsame ?_, hkind, hsafe.1, hsafe.2,
    hsame.parked.trans h.parked, ?_⟩
  · rw [h.kind, sent_tx h.kind, sent_tx hkind]
    exact hm
  · rw [hst]
    intro h1 c hc
    obtain ⟨b, hb, hfol⟩ := hm.opened c hc
    rw [hfol.req]
    exact h.count h1 b hb

/-- A step that leaves the queue alone. -/
theorem TxInv.still {x : Desk} (h : TxInv x) {l : QLabel} (hl : l.Traffic)
    (hsame : SameNotes x (x.step l)) (hq : (x.step l).sys.q = x.sys.q) : TxInv (x.step l) := by
  apply h.moves hl hsame
  · rw [hq]
    exact ⟨h.credit, h.released.mono hsame.nreq⟩
  · rw [hq]
    exact .refl _ _

/-- A request is taken, or refused with an error. -/
theorem requestSubmit_takes {s : QSys} (hkind : s.q.isRx = false) (req : Request)
    (mapped : Bool) :
    (s.Takes req mapped ∧
        qdmaRequestSubmit s.q s.nreq req mapped = (s.q.enqueue (req.newCb s.nreq), none)) ∨
      ¬ s.Takes req mapped ∧ ∃ rv, rv < 0 ∧
        qdmaRequestSubmit s.q s.nreq req mapped = (s.q, some rv) := by
  have hkind' : ¬ s.q.isRx = true := by
    rw [hkind]
    decide
  unfold qdmaRequestSubmit
  by_cases hdir : req.write = s.q.conf.c2h
  · rw [if_pos hdir]
    refine .inr ⟨fun htakes => ?_, einval, by decide, rfl⟩
    rw [htakes.1] at hdir
    revert hdir
    cases s.q.conf.c2h <;> decide
  · rw [if_neg hdir]
    by_cases hmap : (!req.dmaMapped && !mapped) = true
    · rw [if_pos hmap]
      refine .inr ⟨fun htakes => ?_, eio, by decide, rfl⟩
      have hyes := (htakes.2.resolve_left hkind').1
      revert hyes hmap
      cases req.dmaMapped <;> cases mapped <;> decide
    · rw [if_neg hmap]
      cases honline : s.q.online with
      | false =>
          refine .inr ⟨fun htakes => ?_, einval, by decide, rfl⟩
          have hyes := (htakes.2.resolve_left hkind').2
          rw [honline] at hyes
          cases hyes
      | true =>
          refine .inl ⟨⟨?_, .inr ⟨?_, honline⟩⟩, rfl⟩
          · revert hdir
            cases req.write <;> cases s.q.conf.c2h <;> decide
          · revert hmap
            cases req.dmaMapped <;> cases mapped <;> decide

theorem TxInv.submit {x : Desk} (h : TxInv x) {req : Request} {mapped : Bool}
    (hok : Honest x (.submit req mapped)) : TxInv (x.step (.submit req mapped)) := by
  obtain ⟨htotal, _, hzero⟩ := hok
  obtain ⟨hasked, _, hret, hacc⟩ := noteSubmit_spec x req mapped
  have hids := h.ids.step (.submit req mapped)
  have hkind' := (isRx_step x (l := .submit req mapped) trivial).trans h.kind
  have hst : (x.step (.submit req mapped)).sys.q.conf = x.sys.q.conf :=
    congrArg Prod.fst (fixed_step x.sys (l := .submit req mapped) trivial)
  have hrv : x.sys.submitReturn req mapped
      = (qdmaRequestSubmit x.sys.q x.sys.nreq req mapped).2 := by
    unfold QSys.submitReturn
    rw [if_neg (by rw [h.kind]; decide)]
  have hsent : ∀ {q' : Descq}, (x.step (.submit req mapped)).sys.q = q' →
      q'.regs = x.sys.q.regs → (x.step (.submit req mapped)).sent = x.sent := by
    intro q' hq' hregs
    rw [sent_tx h.kind, sent_tx hkind']
    funext i
    unfold Descq.postedBytes
    rw [hst, hq', hregs]
  obtain ⟨hnew, _⟩ := h.ids.new
  rcases requestSubmit_takes h.kind req mapped with ⟨htakes, heq⟩ | ⟨hnot, rv, hneg, heq⟩
  · -- queued: its block joins `work_list`
    have hsys : (x.step (.submit req mapped)).sys
        = QSys.sleep { x.sys with q := x.sys.q.enqueue (req.newCb x.sys.nreq),
                                  nreq := x.sys.nreq + 1 } x.sys.nreq req := by
      show x.sys.submit req mapped = _
      unfold QSys.submit
      simp only [h.kind, Bool.false_eq_true, if_false, heq]
    have hq : (x.step (.submit req mapped)).sys.q = x.sys.q.enqueue (req.newCb x.sys.nreq) := by
      rw [hsys, sleep_q]
    have hrest : (x.step (.submit req mapped)).sys.nreq = x.sys.nreq + 1 ∧
        (x.step (.submit req mapped)).sys.parked = x.sys.parked ∧
        ∀ id ∈ (x.step (.submit req mapped)).sys.waiters,
          id ∈ x.sys.waiters ∨ id = x.sys.nreq ∧ req.fpDone = false := by
      rw [hsys]
      unfold QSys.sleep
      cases hfp : req.fpDone with
      | true => exact ⟨rfl, rfl, fun id hid => .inl hid⟩
      | false =>
          refine ⟨rfl, rfl, fun id hid => ?_⟩
          exact (List.mem_append.mp hid).imp_right (fun h => ⟨List.mem_singleton.mp h, rfl⟩)
    obtain ⟨hnreq, hparked, hwaiters⟩ := hrest
    have hreqs : (x.step (.submit req mapped)).sys.q.reqs
        = x.sys.q.reqs ++ [req.newCb x.sys.nreq] := by
      rw [hq, enqueue_reqs]
    have hsent' := hsent hq rfl
    have hhas : (x.step (.submit req mapped)).sys.q.Has x.sys.nreq := by
      refine .inl ?_
      rw [hreqs, List.map_append]
      exact List.mem_append_right _ (List.mem_singleton.mpr rfl)
    refine ⟨h.toDeskInv.submit hids ⟨?_, hasked, hnreq, ?_, ?_, ?_, ?_, ?_, ?_, ?_⟩, hkind', ?_, ?_,
      hparked.trans h.parked, ?_⟩
    · rw [hkind', h.kind]
    · rw [hq]
      rfl
    · rw [hsent']
      exact fun _ _ => rfl
    · intro c hc
      unfold QSys.live at hc ⊢
      rw [hparked, hreqs, ← List.append_assoc] at hc
      refine (List.mem_append.mp hc).imp_right (fun hc => ?_)
      rw [List.mem_singleton.mp hc, hsent', h.unsent _ le_rfl, h.kind]
      exact ⟨rfl, rfl, rfl⟩
    · rw [hreqs]
      exact fun c hc => List.mem_append_left _ hc
    · intro r hr
      rcases hret r hr with hr | ⟨rv, hrv', _⟩
      · exact .inl hr
      · rw [hrv, heq] at hrv'
        cases hrv'
    · intro id hid
      refine (hwaiters id hid).imp_right ?_
      rintro ⟨rfl, hfp⟩
      exact ⟨rfl, hhas, hfp⟩
    · intro id hid
      refine (hacc id hid).imp_right ?_
      rintro ⟨rfl, _⟩
      exact ⟨rfl, fun _ => hhas⟩
    · rw [hq]
      exact h.credit.enqueue h.released.new_id htotal
    · rw [hq, hnreq]
      exact h.released.enqueue req
    · rw [hst, hreqs]
      intro h1 c hc
      rcases List.mem_append.mp hc with hc | hc
      · exact h.count h1 c hc
      · rw [List.mem_singleton.mp hc]
        intro h0
        rw [(hzero h0).1] at h1
        cases h1
  · -- refused: an error, and nothing is moved
    have hsys : (x.step (.submit req mapped)).sys = { x.sys with nreq := x.sys.nreq + 1 } := by
      show x.sys.submit req mapped = _
      unfold QSys.submit
      simp only [h.kind, Bool.false_eq_true, if_false, heq]
    have hq : (x.step (.submit req mapped)).sys.q = x.sys.q := by
      rw [hsys]
    have hsent' := hsent hq rfl
    refine ⟨h.toDeskInv.submit hids ⟨?_, hasked, ?_, ?_, ?_, ?_, ?_, ?_, ?_, ?_⟩, hkind', ?_, ?_,
      ?_, ?_⟩
    · rw [hkind', h.kind]
    · rw [hsys]
    · rw [hq]
    · rw [hsent']
      exact fun _ _ => rfl
    · rw [hsys]
      exact fun c hc => .inl hc
    · rw [hq]
      exact fun c hc => hc
    · intro r hr
      refine (hret r hr).imp_right ?_
      rintro ⟨rv', hrv', rfl⟩
      rw [hrv, heq] at hrv'
      cases hrv'
      refine ⟨rfl, ?_, ?_⟩
      · rw [hsys]
        exact hnew
      · rw [hsent', h.unsent _ le_rfl]
        exact .error hneg (fun h0 => hnot (hzero h0.symm).2)
    · rw [hsys]
      exact fun id hid => .inl hid
    · intro id hid
      refine (hacc id hid).imp_right ?_
      rintro ⟨rfl, ⟨rv', hrv', h0⟩ | ⟨hnone, _⟩⟩
      · rw [hrv, heq] at hrv'
        cases hrv'
        exact absurd h0 (not_le.mpr hneg)
      · rw [hrv, heq] at hnone
        cases hnone
    · rw [hq]
      exact h.credit
    · rw [hsys]
      exact h.released.mono (Nat.le_succ _)
    · rw [hsys]
      exact h.parked
    · rw [hst, hq]
      exact h.count

theorem HeadServed.conf {q q' : Descq} {cb : SgtReqCb} {rest : List SgtReqCb}
    (h : HeadServed q cb rest q') : q'.conf = q.conf := by
  cases h with
  | failed => rfl
  | @moved d' ps hps hp hall =>
      have hconf : d'.conf = q.conf := (congrArg Descq.conf hp.frame).trans rfl
      exact hconf
  | @stays d' ps hps hp hfull hmore hat =>
      have hconf : d'.conf = q.conf := (congrArg Descq.conf hp.frame).trans rfl
      exact hconf

/-- **A worker pass.** -/
theorem TxInv.worker {x : Desk} (h : TxInv x) (hok : Honest x .worker) :
    TxInv (x.step .worker) := by
  have hcareful : Careful x.sys.toSys .worker := hok.resolve_left (by rw [h.kind]; decide)
  obtain ⟨hcredit, hrel, _, hm⟩ := pass_rule
    (P := fun q' => Released x.sys.nreq q' ∧ q'.conf = x.sys.q.conf ∧
      Moves (SgtReqCb.Agrees false) x.sys.q.postedBytes q'.postedBytes x.sys.q.reqs q'.reqs
        x.sys.q.finished q'.finished)
    (fun q cb rest q' hinv _ hw _ ⟨hrel, hconf, hm⟩ hs => by
      refine ⟨hrel.serve hinv hw hs, hs.conf.trans hconf, hm.trans (hs.moves hinv hw ?_)⟩
      -- the head asks for what it asked for before the pass
      intro hst
      have hcb : cb ∈ q.reqs := List.mem_append_right _ (hw ▸ List.mem_cons_self ..)
      obtain ⟨b, hb, hfol⟩ := hm.opened cb hcb
      rw [hfol.req]
      exact h.count (by rw [← hconf]; exact hst) b hb)
    h.credit ⟨hcareful.1, hcareful.2⟩ ⟨h.released, rfl, .refl _ _⟩
  exact h.moves trivial ⟨isRx_step x trivial, rfl, rfl, rfl, rfl, rfl, le_rfl⟩ ⟨hcredit, hrel⟩ hm

/-- **A writeback.** -/
theorem TxInv.service {x : Desk} (h : TxInv x) {budget : ℤ} {fill : ℕ → FillOutcome}
    (hok : Honest x (.service budget fill)) : TxInv (x.step (.service budget fill)) := by
  have hcareful : Careful x.sys.toSys .wb := hok.resolve_left (by rw [h.kind]; decide)
  have hkind := h.kind
  have hno : ¬ x.sys.q.isRx = true := by
    rw [hkind]
    decide
  have hcopies : serviceCopies x.sys.q budget = [] := if_neg hno
  have hq : (x.step (.service budget fill)).sys.q = descqMmNH2cWb x.sys.q := if_neg hno
  have hsame : SameNotes x (x.step (.service budget fill)) :=
    ⟨isRx_step x trivial, rfl, rfl, rfl, rfl, rfl, le_rfl⟩
  rcases h.credit.wb_eq hcareful with ⟨_, heq⟩ | ⟨_, heq⟩
  · exact h.still trivial hsame (hq.trans heq)
  · rw [heq] at hq
    apply h.moves (l := .service budget fill) trivial hsame
    · rw [hq]
      exact ⟨h.credit.settled, h.released.settled h.credit⟩
    · rw [hq]
      exact moves_settled h.credit

/-- **Step lemma** of a memory-mapped or ST H2C queue. -/
theorem TxInv.step {x : Desk} (h : TxInv x) {l : QLabel} (hleg : DeskLegal x l)
    (hok : Honest x l) : TxInv (x.step l) := by
  have hl := hleg.traffic
  have hno : ¬ x.sys.q.isRx = true := by
    rw [h.kind]
    decide
  have hsame : ∀ {l}, l.Traffic → (x.step l).asked = x.asked →
      (x.step l).accepted = x.accepted → (x.step l).returned = x.returned →
      (x.step l).sys.parked = x.sys.parked → (x.step l).sys.waiters = x.sys.waiters →
      x.sys.nreq ≤ (x.step l).sys.nreq → SameNotes x (x.step l) :=
    fun hl h1 h2 h3 h4 h5 h6 => ⟨isRx_step x hl, h1, h2, h3, h4, h5, h6⟩
  cases l with
  | submit req mapped => exact h.submit hok
  | worker => exact h.worker hok
  | service budget fill => exact h.service hok
  | pend id =>
      -- no caller is between two locked sections
      have hnone : x.sys.parked.find? (fun c => c.id = id) = none := by
        rw [h.parked]
        rfl
      have hx : x.step (.pend id) = x := by
        unfold Desk.step Desk.note QSys.step
        simp only [hnone]
      rw [hx]
      exact h
  | packetRead req =>
      have hq : (x.step (.packetRead req)).sys.q = x.sys.q := by
        show (qdmaQueuePacketRead x.sys.q x.sys.nreq req).1 = _
        unfold qdmaQueuePacketRead
        rw [if_pos]
        rw [← Bool.not_and]
        exact congrArg (!·) h.kind
      exact h.still trivial (hsame trivial rfl rfl rfl rfl rfl (Nat.le_succ _)) hq
  | device wbCidx mem wbPidx page =>
      have hlegal : Legal x.sys.toSys (.hw wbCidx) := hleg.resolve_left hno
      have hq : (x.step (.device wbCidx mem wbPidx page)).sys.q
          = (x.sys.toSys.hw wbCidx).q := if_neg hno
      apply h.moves hl (hsame hl rfl rfl rfl rfl rfl le_rfl)
      · rw [hq]
        exact ⟨CreditInv.hw (s := x.sys.toSys) h.credit hlegal,
          ⟨h.released.fresh, h.released.gone, h.released.safe, h.released.whole⟩⟩
      · rw [hq]
        exact .refl _ _
  | wait id =>
      have hcond := hok.resolve_left hno
      have hsafe := safeInv_step x.sys.toSys (.wait id) h.safe
        ⟨hleg, hcond.imp_right (fun hall cb hcb hid => (hall cb hcb hid).1)⟩
      have hq : (x.step (.wait id)).sys.q = (x.sys.toSys.wait id).q := rfl
      have hconf : (x.step (.wait id)).sys.q.conf = x.sys.q.conf :=
        congrArg Prod.fst (fixed_step x.sys hl)
      refine ⟨h.toDeskInv.wait hleg ?_, (isRx_step x hl).trans h.kind, ?_, ?_, h.parked, ?_⟩
      · intro hnone cb hcb hid
        rw [hnone] at hcond
        obtain ⟨_, hoff⟩ := hcond.resolve_left (by decide) cb hcb hid
        have hagree := (h.books.live cb (List.mem_append_right _ hcb)).2
        rw [h.kind, hid] at hagree
        rw [show x.sent id = cb.offset from hagree]
        exact hoff
      · rw [hq]
        exact hsafe.credit
      · rw [hq]
        exact hsafe.released
      · rw [hconf]
        intro h1 c hc
        exact h.count h1 c (wait_reqs_subset hc)
  | stop | reconfig | start => exact absurd hl id

/-- Off the lists, all descriptors of a request are consumed. -/
theorem TxInv.moved {x : Desk} (h : TxInv x) {id : ℕ} (hgone : id ∉ x.sys.live.map SgtReqCb.id) :
    x.moved id = x.sent id := by
  have hno : ¬ x.sys.q.isRx = true := by
    rw [h.kind]
    decide
  have hheld : some id ∉ x.sys.q.held := by
    apply h.credit.not_held
    unfold QSys.live at hgone
    rw [h.parked] at hgone
    exact hgone
  rw [held_eq] at hheld
  unfold Desk.moved Desk.sent
  rw [if_neg hno, if_neg hno, ← consumed_append h.credit.ring, descBytes_append,
    descBytes_none hheld, Nat.add_zero]

end Qdma
