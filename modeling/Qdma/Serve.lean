/-
# What a pass and a writeback do to the request lists

The worker serves the head of `work_list`, a writeback settles the front of
`pend_list`.  With distinct requests on the lists both are plain operations on them:

* `chargeRequest_head`: the head is charged and stays, or moves to the end of
  `pend_list` when its last byte is posted;
* `reqUpdatePend_eq`: `req_update_pend` is `Blocks.settle` on `pend_list`.

`AtEntry` says that a request was interrupted between two of its entries; it then goes
on exactly there (`resumeAt_atEntry`).
-/
import Qdma.Blocks
import Qdma.RingRun

namespace Qdma

open RingIndex Blocks

/-! ## Entries and pieces -/

/-- The bytes of a scatter list. -/
def sglLen (sgl : List SwSg) : ℕ := (sgl.map SwSg.len).sum

@[simp] theorem sglLen_nil : sglLen [] = 0 := rfl

@[simp] theorem sglLen_cons (sg : SwSg) (sgl : List SwSg) :
    sglLen (sg :: sgl) = sg.len + sglLen sgl := by
  simp [sglLen]

theorem sglLen_take_add_drop (sgl : List SwSg) (i : ℕ) :
    sglLen (sgl.take i) + sglLen (sgl.drop i) = sglLen sgl := by
  rw [sglLen, sglLen, ← List.sum_append, ← List.map_append, List.take_append_drop]
  rfl

theorem sglLen_take_le (sgl : List SwSg) (i : ℕ) : sglLen (sgl.take i) ≤ sglLen sgl := by
  have := sglLen_take_add_drop sgl i
  omega

/-- The number of descriptors an entry takes. -/
def entryDescs (st : Bool) (sg : SwSg) : ℕ := (entryPieces st sg false).length

@[simp] theorem bytes_nil : bytes [] = 0 := rfl

@[simp] theorem bytes_append (ps qs : List Piece) : bytes (ps ++ qs) = bytes ps + bytes qs := by
  simp [bytes]

/-- A cut neither loses nor adds bytes. -/
theorem bytes_cut {max : ℕ} (hmax : 0 < max) (last : Bool) {fuel tlen : ℕ} (addr : ℕ)
    (h : tlen ≤ fuel) : bytes (cut max last fuel tlen addr) = tlen := by
  induction fuel generalizing tlen addr with
  | zero => simp only [cut, bytes_nil]; omega
  | succ fuel ih =>
      rw [cut]
      split_ifs with h0
      · exact h0.symm
      · rw [bytes, List.map_cons, List.sum_cons]
        have hrest : bytes (cut max last fuel (tlen - min tlen max) (u64 (addr + min tlen max)))
            = tlen - min tlen max := ih _ (by omega)
        rw [bytes] at hrest
        rw [hrest]
        show min tlen max + (tlen - min tlen max) = tlen
        omega

theorem bytes_entryPieces (st : Bool) (sg : SwSg) (last : Bool) :
    bytes (entryPieces st sg last) = sg.len := by
  have hmm : 0 < qdmaDescBlenMax := by decide
  have hpg : 0 < pageSize := by decide
  unfold entryPieces stPieces mmPieces
  split_ifs with h1 h2
  · simp [bytes, h2]
  · exact bytes_cut hpg _ _ le_rfl
  · exact bytes_cut hmm _ _ le_rfl

theorem length_cut (max : ℕ) (last last' : Bool) (fuel tlen addr : ℕ) :
    (cut max last fuel tlen addr).length = (cut max last' fuel tlen addr).length := by
  induction fuel generalizing tlen addr with
  | zero => rfl
  | succ fuel ih =>
      rw [cut, cut]
      split_ifs
      · rfl
      · rw [List.length_cons, List.length_cons, ih]

theorem length_entryPieces (st : Bool) (sg : SwSg) (last : Bool) :
    (entryPieces st sg last).length = entryDescs st sg := by
  unfold entryDescs entryPieces stPieces mmPieces
  split_ifs
  · rfl
  · exact length_cut _ _ _ _ _ _
  · exact length_cut _ _ _ _ _ _

theorem length_sglPieces (st : Bool) (sgl : List SwSg) :
    (sglPieces st sgl).length = (sgl.map (entryDescs st)).sum := by
  induction sgl with
  | nil => rfl
  | cons sg sgl ih =>
      rw [sglPieces, List.length_append, length_entryPieces, ih, List.map_cons, List.sum_cons]

/-- The pieces of the first `m` entries carry their bytes. -/
theorem bytes_take_entries (st : Bool) (sgl : List SwSg) (m : ℕ) :
    bytes ((sglPieces st sgl).take (((sgl.map (entryDescs st)).take m).sum))
      = sglLen (sgl.take m) := by
  induction sgl generalizing m with
  | nil => simp [sglPieces]
  | cons sg sgl ih =>
      cases m with
      | zero => simp
      | succ m =>
          rw [List.map_cons, List.take_succ_cons, List.sum_cons, sglPieces,
            ← length_entryPieces st sg sgl.isEmpty, List.take_length_add_append, bytes_append,
            bytes_entryPieces, ih, List.take_succ_cons, sglLen_cons]

theorem bytes_sglPieces (st : Bool) (sgl : List SwSg) : bytes (sglPieces st sgl) = sglLen sgl := by
  induction sgl with
  | nil => rfl
  | cons sg sgl ih => rw [sglPieces, bytes_append, bytes_entryPieces, ih, sglLen_cons]

/-- A memory-mapped descriptor always carries bytes. -/
theorem mmPieces_len_pos {sgl : List SwSg} : ∀ p ∈ sglPieces false sgl, 0 < p.len := by
  have hmax : 0 < qdmaDescBlenMax := by decide
  have hcut : ∀ (last : Bool) (fuel tlen addr : ℕ),
      ∀ p ∈ cut qdmaDescBlenMax last fuel tlen addr, 0 < p.len := by
    intro last fuel
    induction fuel with
    | zero => simp [cut]
    | succ fuel ih =>
        intro tlen addr p hp
        rw [cut] at hp
        split_ifs at hp with h0
        · cases hp
        · rcases List.mem_cons.mp hp with rfl | hp
          · show 0 < min tlen qdmaDescBlenMax
            omega
          · exact ih _ _ p hp
  induction sgl with
  | nil => simp [sglPieces]
  | cons sg sgl ih =>
      intro p hp
      rcases List.mem_append.mp hp with hp | hp
      · exact hcut _ _ _ _ p hp
      · exact ih p hp

theorem eq_nil_of_bytes {ps : List Piece} (hpos : ∀ p ∈ ps, 0 < p.len) (h : bytes ps = 0) :
    ps = [] := by
  cases ps with
  | nil => rfl
  | cons p ps =>
      have := hpos p (List.mem_cons_self ..)
      rw [bytes, List.map_cons, List.sum_cons] at h
      omega

/-! ## Resuming between two entries -/

/-- The entries a pass over `cb` goes on with. -/
def leftEntries (cb : SgtReqCb) : List SwSg :=
  match resumeAt cb with
  | none => []
  | some p => cb.req.sgl.drop p.1

/-- The descriptors these entries take, entry by entry. -/
def leftDescs (st : Bool) (cb : SgtReqCb) : List ℕ := (leftEntries cb).map (entryDescs st)

/-- The pieces a pass over `cb` goes on with. -/
def leftPieces (st : Bool) (cb : SgtReqCb) : List Piece := sglPieces st (leftEntries cb)

theorem length_leftPieces (st : Bool) (cb : SgtReqCb) :
    (leftPieces st cb).length = (leftDescs st cb).sum :=
  length_sglPieces st _

/-- A request whose entries add up to its count and which stands between two entries,
with bytes to go unless it was never served. -/
structure AtEntry (cb : SgtReqCb) : Prop where
  total : sglLen cb.req.sgl = cb.req.count
  entry : ∃ m, cb.offset = sglLen (cb.req.sgl.take m)
  more : cb.offset = 0 ∨ cb.offset < cb.req.count

theorem sglFindOffsetGo_eq {offset : ℕ} (sgl : List SwSg) (len i : ℕ) {m : ℕ}
    (hsum : len + sglLen sgl < 2 ^ 32) (hlt : len < offset)
    (hm : offset = len + sglLen (sgl.take m)) :
    ∃ k, sglFindOffsetGo offset sgl len i = some (i + k, 0) ∧
      sglLen (sgl.take k) = offset - len := by
  induction sgl generalizing len i m with
  | nil =>
      rw [List.take_nil, sglLen_nil] at hm
      omega
  | cons sg sgl ih =>
      rw [sglLen_cons] at hsum
      cases m with
      | zero =>
          rw [List.take_zero, sglLen_nil] at hm
          omega
      | succ m =>
          rw [List.take_succ_cons, sglLen_cons] at hm
          have hu : u32 (len + sg.len) = len + sg.len := u32_of_lt (by omega)
          rw [sglFindOffsetGo]
          simp only [hu]
          split_ifs with h1 h2
          · exact ⟨1, rfl, by simp [sglLen]; omega⟩
          · omega
          · obtain ⟨k, hk, hlen⟩ := ih (len + sg.len) (i + 1) (by omega) (by omega)
              (show offset = len + sg.len + sglLen (sgl.take m) by omega)
            refine ⟨k + 1, by rw [hk]; congr 2; omega, ?_⟩
            rw [List.take_succ_cons, sglLen_cons, hlen]
            omega

/-- `sgl_find_offset` stops at the first entry that ends at the offset or beyond. -/
theorem sglFindOffsetGo_first {offset : ℕ} (sgl : List SwSg) (len i : ℕ) {p : ℕ × ℕ}
    (hsum : len + sglLen sgl < 2 ^ 32) (hlt : len < offset)
    (h : sglFindOffsetGo offset sgl len i = some p) {j : ℕ} (hj : i + j < p.1) :
    len + sglLen (sgl.take j) < offset := by
  induction sgl generalizing len i j with
  | nil => cases h
  | cons sg sgl ih =>
      rw [sglLen_cons] at hsum
      have hu : u32 (len + sg.len) = len + sg.len := u32_of_lt (by omega)
      rw [sglFindOffsetGo] at h
      simp only [hu] at h
      cases j with
      | zero => rw [List.take_zero, sglLen_nil, Nat.add_zero]; exact hlt
      | succ j =>
          rw [List.take_succ_cons, sglLen_cons, ← Nat.add_assoc]
          split_ifs at h with h1 h2
          · cases h
            simp only at hj
            omega
          · cases h
            simp only at hj
            omega
          · exact ih (len + sg.len) (i + 1) (by omega) (by omega) h (by omega)

/-- **A request interrupted between two entries goes on with the next one.** -/
theorem resumeAt_atEntry {cb : SgtReqCb} (h : AtEntry cb) :
    ∃ i, resumeAt cb = some (i, 0) ∧ sglLen (cb.req.sgl.take i) = cb.offset ∧
      (cb.offset = 0 → i = 0) := by
  unfold resumeAt
  by_cases h0 : cb.offset = 0
  · exact ⟨0, by rw [if_neg (not_not.mpr h0)], by rw [h0]; rfl, fun _ => rfl⟩
  · obtain ⟨m, hm⟩ := h.entry
    have hlt := cb.req.count_lt
    have hmore := h.more.resolve_left h0
    obtain ⟨i, hi, hlen⟩ := sglFindOffsetGo_eq cb.req.sgl 0 0
      (by rw [h.total]; omega) (by omega) (show cb.offset = 0 + sglLen (cb.req.sgl.take m) by omega)
    rw [Nat.zero_add] at hi
    rw [Nat.sub_zero] at hlen
    refine ⟨i, ?_, hlen, fun hz => absurd hz h0⟩
    have hin : i < cb.req.sgcnt := by
      by_contra hge
      rw [List.take_of_length_le (by unfold Request.sgcnt at hge; omega), h.total] at hlen
      omega
    rw [if_pos h0, sglFindOffset, hi]
    simp [Option.filter, hin]

/-- Before the entry a request goes on with fewer bytes are posted. -/
theorem sglLen_take_lt_offset {cb : SgtReqCb} (h : AtEntry cb) {p : ℕ × ℕ}
    (hr : resumeAt cb = some p) {j : ℕ} (hj : j < p.1) :
    sglLen (cb.req.sgl.take j) < cb.offset := by
  unfold resumeAt at hr
  split_ifs at hr with h0
  · have hlt := cb.req.count_lt
    have hgo := (Option.filter_eq_some_iff.mp hr).1
    have := sglFindOffsetGo_first cb.req.sgl 0 0 (by rw [h.total]; omega)
      (Nat.pos_of_ne_zero h0) hgo (j := j) (by omega)
    omega
  · cases hr
    omega

theorem sglLen_leftEntries {cb : SgtReqCb} (h : AtEntry cb) :
    cb.offset + sglLen (leftEntries cb) = cb.req.count := by
  obtain ⟨i, hi, hlen, _⟩ := resumeAt_atEntry h
  unfold leftEntries
  rw [hi, ← hlen, ← h.total]
  exact sglLen_take_add_drop _ _

/-- The bytes of the pieces that fit, when the ring does not run out inside an entry:
those of the first entries left; all of them if all fit. -/
theorem bytes_take_left {st : Bool} {cb : SgtReqCb} {a : ℕ}
    (hstop : StopsAtBlock (leftDescs st cb) a) :
    ∃ m, bytes ((leftPieces st cb).take a) = sglLen ((leftEntries cb).take m) := by
  obtain ⟨m, _, hmin⟩ := hstop.exists_take
  refine ⟨m, ?_⟩
  have htake : (leftPieces st cb).take a
      = (leftPieces st cb).take (((leftDescs st cb).take m).sum) := by
    rw [← hmin, ← length_leftPieces, List.take_eq_take_min]
  rw [htake]
  exact bytes_take_entries st (leftEntries cb) m

/-! ## The lists -/

/-- The queue with other request lists. -/
def Descq.withLists (d : Descq) (work pend : List SgtReqCb) (fin : List Done) : Descq :=
  { d with workList := work, pendList := pend, finished := fin }

/-- The requests on the two lists, those about to complete first. -/
def Descq.reqs (d : Descq) : List SgtReqCb := d.pendList ++ d.workList

/-- A wait that ends takes a request off the lists, or none. -/
theorem wait_reqs_subset {d : Descq} {id : ℕ} : (qdmaRequestWaitForCmpl d id).1.reqs ⊆ d.reqs := by
  intro c hc
  unfold qdmaRequestWaitForCmpl at hc
  cases hd : d.doneCb id with
  | some cb =>
      rw [hd] at hc
      exact hc
  | none =>
      rw [hd] at hc
      rcases List.mem_append.mp hc with hc | hc
      · exact List.mem_append_left _ (List.mem_of_mem_filter hc)
      · exact List.mem_append_right _ (List.mem_of_mem_filter hc)

theorem filter_id_ne {id : ℕ} {l : List SgtReqCb} (h : id ∉ l.map SgtReqCb.id) :
    l.filter (fun c => c.id ≠ id) = l := by
  rw [List.filter_eq_self]
  intro c hc
  exact decide_eq_true (fun he => h (he ▸ List.mem_map_of_mem hc))

theorem filter_id_ne_head {cb : SgtReqCb} {l : List SgtReqCb} {id : ℕ} (hid : cb.id = id)
    (h : id ∉ l.map SgtReqCb.id) : (cb :: l).filter (fun c => c.id ≠ id) = l := by
  rw [List.filter_cons_of_neg (by simp [hid]), filter_id_ne h]

theorem updCb_eq_self {cb : SgtReqCb} {l : List SgtReqCb} (h : cb.id ∉ l.map SgtReqCb.id) :
    updCb cb l = l := by
  unfold updCb
  conv_rhs => rw [← List.map_id l]
  refine List.map_congr_left (fun c hc => if_neg (fun he => h ?_))
  rw [← he]
  exact List.mem_map_of_mem hc

theorem updCb_head {cb cb' : SgtReqCb} {l : List SgtReqCb} (hid : cb'.id = cb.id)
    (h : cb'.id ∉ l.map SgtReqCb.id) : updCb cb' (cb :: l) = cb' :: l := by
  have hrest := updCb_eq_self h
  unfold updCb at hrest ⊢
  rw [List.map_cons, if_pos hid.symm, hrest]

/-- Distinct requests, seen from the head of `work_list`. -/
theorem nodup_work_head {p w : List SgtReqCb} {cb : SgtReqCb}
    (h : ((p ++ cb :: w).map SgtReqCb.id).Nodup) :
    cb.id ∉ p.map SgtReqCb.id ∧ cb.id ∉ w.map SgtReqCb.id := by
  rw [List.map_append, List.map_cons, List.nodup_append] at h
  obtain ⟨_, h2, h3⟩ := h
  exact ⟨fun hp => h3 _ hp _ (List.mem_cons_self ..) rfl, (List.nodup_cons.mp h2).1⟩

/-- Distinct requests, seen from the head of `pend_list`. -/
theorem nodup_pend_head {p w : List SgtReqCb} {cb : SgtReqCb}
    (h : ((cb :: p ++ w).map SgtReqCb.id).Nodup) :
    cb.id ∉ p.map SgtReqCb.id ∧ cb.id ∉ w.map SgtReqCb.id ∧
      ((p ++ w).map SgtReqCb.id).Nodup := by
  rw [List.cons_append, List.map_cons, List.nodup_cons, List.map_append] at h
  refine ⟨fun hp => h.1 (List.mem_append_left _ hp), fun hw => h.1 (List.mem_append_right _ hw),
    ?_⟩
  rw [List.map_append]
  exact h.2

/-- Charging the head of `work_list`. -/
theorem chargeRequest_head {d : Descq} {cb : SgtReqCb} {rest : List SgtReqCb} {n b : ℕ}
    (hw : d.workList = cb :: rest) (hnd : (d.reqs.map SgtReqCb.id).Nodup) :
    chargeRequest d cb n b =
      if (cb.charge n b).offset = cb.req.count then
        { d with avail := d.avail - n }.withLists rest (d.pendList ++ [cb.charge n b]) d.finished
      else { d with avail := d.avail - n }.withLists (cb.charge n b :: rest) d.pendList
        d.finished := by
  unfold Descq.reqs at hnd
  rw [hw] at hnd
  obtain ⟨hp, hr⟩ := nodup_work_head hnd
  have hset : { d with avail := d.avail - n }.setCb (cb.charge n b)
      = { d with avail := d.avail - n }.withLists (cb.charge n b :: rest) d.pendList
          d.finished := by
    unfold Descq.setCb Descq.withLists
    simp only [hw]
    have h1 : updCb (cb.charge n b) (cb :: rest) = cb.charge n b :: rest := updCb_head rfl hr
    have h2 : updCb (cb.charge n b) d.pendList = d.pendList := updCb_eq_self hp
    rw [h1, h2]
  unfold chargeRequest
  simp only [hset]
  split_ifs with h1 h2 h2
  · unfold reqSubmitted Descq.listDel Descq.withLists
    simp only
    have h3 : (cb.charge n b :: rest).filter (fun c => c.id ≠ (cb.charge n b).id) = rest :=
      filter_id_ne_head rfl hr
    have h4 : d.pendList.filter (fun c => c.id ≠ (cb.charge n b).id) = d.pendList :=
      filter_id_ne hp
    rw [h3, h4]
  · exact absurd h1 h2
  · exact absurd h2 h1
  · rfl

/-- Failing the head of `work_list`. -/
theorem reqDone_work_head {d : Descq} {cb : SgtReqCb} {rest : List SgtReqCb} (e : ℤ)
    (hw : d.workList = cb :: rest) (hnd : (d.reqs.map SgtReqCb.id).Nodup) :
    qdmaSgtReqDone d cb e
      = d.withLists rest d.pendList (d.finished ++ [{ cb := cb.finish e, held := d.held }]) := by
  unfold Descq.reqs at hnd
  rw [hw] at hnd
  obtain ⟨hp, hr⟩ := nodup_work_head hnd
  unfold qdmaSgtReqDone Descq.listDel Descq.withLists
  simp only [hw]
  rw [filter_id_ne_head rfl hr, filter_id_ne hp]
  rfl

/-- Completing the head of `pend_list`. -/
theorem reqDone_pend_head {d : Descq} {cb : SgtReqCb} {rest : List SgtReqCb} (e : ℤ)
    (hp : d.pendList = cb :: rest) (hnd : (d.reqs.map SgtReqCb.id).Nodup) :
    qdmaSgtReqDone d cb e
      = d.withLists d.workList rest (d.finished ++ [{ cb := cb.finish e, held := d.held }]) := by
  unfold Descq.reqs at hnd
  rw [hp] at hnd
  obtain ⟨hr, hw, _⟩ := nodup_pend_head hnd
  unfold qdmaSgtReqDone Descq.listDel Descq.withLists
  simp only [hp]
  rw [filter_id_ne_head rfl hr, filter_id_ne hw]
  rfl

/-! ## Settling -/

/-- A pending request takes credits it cannot be completed with. -/
def SgtReqCb.pay (cb : SgtReqCb) (credit : ℕ) : SgtReqCb :=
  { cb with descNr := cb.descNr - credit }

/-- The credits settled against `pend_list`. -/
def settleCbs (l : List SgtReqCb) (credit : ℕ) : List SgtReqCb × List SgtReqCb × ℕ :=
  settle SgtReqCb.descNr SgtReqCb.pay l credit

theorem reqUpdatePendLoop_eq {d : Descq} {l : List SgtReqCb} (credit : ℕ)
    (hp : d.pendList = l) (hnd : (d.reqs.map SgtReqCb.id).Nodup) :
    reqUpdatePendLoop l credit d
      = (d.withLists d.workList (settleCbs l credit).2.1
          (d.finished ++ (settleCbs l credit).1.map
            (fun cb => { cb := cb.finish 0, held := d.held })),
        (settleCbs l credit).2.2) := by
  induction l generalizing d credit with
  | nil =>
      rw [reqUpdatePendLoop, settleCbs, settle, List.map_nil, List.append_nil]
      unfold Descq.withLists
      rw [← hp]
  | cons cb l ih =>
      have hdone := reqDone_pend_head 0 hp hnd
      have hnd' := hnd
      unfold Descq.reqs at hnd'
      rw [hp] at hnd'
      obtain ⟨hl, hw, hrest⟩ := nodup_pend_head hnd'
      rw [reqUpdatePendLoop]
      unfold settleCbs
      rw [settle]
      by_cases h1 : cb.descNr ≤ credit
      · simp only [ge_iff_le, h1, if_true]
        by_cases h2 : credit - cb.descNr = 0
        · simp only [h2, if_true]
          rw [hdone]
          rfl
        · simp only [h2, if_false]
          rw [hdone, ih (d := d.withLists d.workList l _) _ rfl hrest]
          unfold settleCbs Descq.withLists
          simp only [List.map_cons, List.append_assoc, List.singleton_append]
          rfl
      · simp only [ge_iff_le, h1, if_false, if_true]
        unfold Descq.setCb Descq.withLists
        rw [hp, List.map_nil, List.append_nil]
        have h3 : updCb (cb.pay credit) (cb :: l) = cb.pay credit :: l := updCb_head rfl hl
        have h4 : updCb (cb.pay credit) d.workList = d.workList := updCb_eq_self hw
        unfold SgtReqCb.pay at h3 h4 ⊢
        rw [h3, h4]

/-- **`req_update_pend` settles the credits, old and new, against `pend_list`.** -/
theorem reqUpdatePend_eq {d : Descq} {credit : ℕ} (hnd : (d.reqs.map SgtReqCb.id).Nodup)
    (hlt : credit + d.credit < 2 ^ 32) :
    reqUpdatePend d credit =
      { d.withLists d.workList (settleCbs d.pendList (credit + d.credit)).2.1
          (d.finished ++ (settleCbs d.pendList (credit + d.credit)).1.map
            (fun cb => { cb := cb.finish 0, held := d.held })) with
        credit := (settleCbs d.pendList (credit + d.credit)).2.2 } := by
  unfold reqUpdatePend
  rw [u32_of_lt hlt, reqUpdatePendLoop_eq _ rfl hnd]

end Qdma
