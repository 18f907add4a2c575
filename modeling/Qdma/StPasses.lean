/-
# What the passes of an ST H2C request cover

The scatter lists `map_user_buf_to_sgl` builds have one entry for each page the buffer lies on,
or a single empty one.  An entry then takes one descriptor, a pass that runs out of them stops
between two entries, and `descq_proc_st_h2c_request` goes on with the entry behind the last one
posted: `st_covered`, for pages of any size the 16 bits of a descriptor's length can hold.

Once the request is on `pend_list` the worker does not come to it any more: a pass only serves
what is on `work_list`, and nothing is put back there.
-/
import Qdma.MmPasses

namespace Qdma

open Exec RingIndex

/-! ## The scatter list of a user buffer -/

/-- The lengths of the entries `map_user_buf_to_sgl` makes of `len` bytes at `buf`, for `n` pages
of `pg` bytes. -/
def userBufLens (pg : ℕ) : ℕ → ℕ → ℕ → List ℕ
  | 0, _, _ => []
  | n + 1, buf, len =>
      let nbytes := min (pg - buf % pg) len
      nbytes :: userBufLens pg n (buf + nbytes) (len - nbytes)

/-- `pages_nr` of `map_user_buf_to_sgl`. -/
def pagesNr (pg buf len : ℕ) : ℕ :=
  if len = 0 then 1 else (buf + len + pg - 1 - (buf - buf % pg)) / pg

/-- A request over a scatter list as `map_user_buf_to_sgl` builds it: a single empty entry, or
entries of 1 to `pg` bytes that add up to `count`. -/
structure UserBuf (pg : ℕ) (req : Request) : Prop where
  total : sglLen req.sgl = req.count
  shape : (∃ sg, req.sgl = [sg] ∧ sg.len = 0) ∨
    req.sgl ≠ [] ∧ ∀ sg ∈ req.sgl, 0 < sg.len ∧ sg.len ≤ pg

/-- The pages a buffer lies on cover it. -/
theorem userBufLens_spec {pg : ℕ} (hpg : 0 < pg) {n buf len : ℕ}
    (hcover : buf % pg + len ≤ n * pg) (hneed : n ≠ 0 → (n - 1) * pg < buf % pg + len)
    (hlen : n ≠ 0 → 0 < len) :
    (userBufLens pg n buf len).sum = len ∧ ∀ l ∈ userBufLens pg n buf len, 0 < l ∧ l ≤ pg := by
  induction n generalizing buf len with
  | zero =>
      obtain rfl : len = 0 := by omega
      exact ⟨rfl, fun l hl => absurd hl List.not_mem_nil⟩
  | succ n ih =>
      have hmod : buf % pg < pg := Nat.mod_lt _ hpg
      have hpos := hlen (Nat.succ_ne_zero n)
      rw [Nat.add_sub_cancel] at hneed
      have hneed := hneed (Nat.succ_ne_zero n)
      rw [Nat.succ_mul] at hcover
      by_cases hn : n = 0
      · -- the last page takes the rest
        subst hn
        rw [Nat.zero_mul, Nat.zero_add] at hcover
        have hmin : min (pg - buf % pg) len = len := min_eq_right (by omega)
        simp only [userBufLens, hmin, List.sum_cons, List.sum_nil, Nat.add_zero, true_and,
          List.mem_singleton, forall_eq]
        omega
      · have hge : pg ≤ n * pg := Nat.le_mul_of_pos_left _ (by omega)
        have hmin : min (pg - buf % pg) len = pg - buf % pg := min_eq_left (by omega)
        have hnext : (buf + (pg - buf % pg)) % pg = 0 := by
          have hsplit := Nat.div_add_mod buf pg
          rw [show buf + (pg - buf % pg) = pg * (buf / pg) + pg by omega, Nat.add_mod_right,
            Nat.mul_mod_right]
        obtain ⟨m, rfl⟩ : ∃ m, n = m + 1 := ⟨n - 1, by omega⟩
        rw [Nat.succ_mul] at hneed hcover
        have hcover' : (buf + (pg - buf % pg)) % pg + (len - (pg - buf % pg)) ≤ (m + 1) * pg := by
          rw [hnext, Nat.succ_mul]
          omega
        have hneed' : m + 1 ≠ 0 → (m + 1 - 1) * pg
            < (buf + (pg - buf % pg)) % pg + (len - (pg - buf % pg)) := by
          rw [hnext, Nat.add_sub_cancel]
          omega
        obtain ⟨hsum, hall⟩ := ih hcover' hneed' (by omega)
        rw [userBufLens]
        simp only [hmin]
        refine ⟨by rw [List.sum_cons, hsum]; omega, ?_⟩
        intro l hl
        rcases List.mem_cons.mp hl with rfl | hl
        · omega
        · exact hall l hl

/-- **What `map_user_buf_to_sgl` builds** is a scatter list of a user buffer. -/
theorem userBuf_of_lens {pg buf : ℕ} (hpg : 0 < pg) {req : Request}
    (h : req.sgl.map SwSg.len = userBufLens pg (pagesNr pg buf req.count) buf req.count) :
    UserBuf pg req := by
  by_cases h0 : req.count = 0
  · rw [h0] at h
    simp only [pagesNr, if_true, userBufLens, min_eq_right (Nat.zero_le _)] at h
    obtain ⟨sg, hsg, hlen⟩ := List.map_eq_singleton_iff.mp h
    refine ⟨by rw [hsg, h0, sglLen_cons, sglLen_nil, hlen], .inl ⟨sg, hsg, hlen⟩⟩
  · have hmod : buf % pg < pg := Nat.mod_lt _ hpg
    have hle : buf % pg ≤ buf := Nat.mod_le _ _
    rw [pagesNr, if_neg h0] at h
    rw [show buf + req.count + pg - 1 - (buf - buf % pg) = buf % pg + req.count + (pg - 1) by
      omega] at h
    set n := (buf % pg + req.count + (pg - 1)) / pg with hn
    have hdiv := Nat.div_add_mod (buf % pg + req.count + (pg - 1)) pg
    have hrest : (buf % pg + req.count + (pg - 1)) % pg < pg := Nat.mod_lt _ hpg
    rw [← hn, Nat.mul_comm] at hdiv
    obtain ⟨hsum, hall⟩ := userBufLens_spec hpg
      (show buf % pg + req.count ≤ n * pg by omega)
      (by
        intro _
        rw [Nat.sub_mul, Nat.one_mul]
        omega) (fun _ => Nat.pos_of_ne_zero h0)
    rw [← h] at hsum hall
    refine ⟨hsum, .inr ⟨?_, fun sg hsg => hall _ (List.mem_map_of_mem hsg)⟩⟩
    rintro hnil
    rw [hnil] at hsum
    exact h0 hsum.symm

/-! ## The law -/

/-- The descriptor carries the entry. -/
def Desc.Carries (x : Desc) (sg : SwSg) : Prop :=
  x.h2c.srcAddr = sg.dmaAddr ∧ x.h2c.len = sg.len ∧ x.h2c.pldLen = sg.len

/-- A request, the queue it is on, and what passes of the worker have posted since it moved. -/
structure StRun where
  p : Passes
  q : Descq
  later : List Desc := []

/-- The steps. -/
inductive StLabel where
  /-- A pass for the request; `d` is the queue it finds. -/
  | pass (d : Descq)
  /-- A pass of the worker after the request has moved. -/
  | worker
  /-- Whatever else happens to the queue. -/
  | other (d : Descq)

/-- One step, on a kernel with pages of `pg` bytes. -/
def StRun.step (pg : ℕ) (s : StRun) : StLabel → StRun
  | .pass d =>
      { s with
        p := s.p.step (descqProcStH2cRequestOf pg) d
        q := (descqProcStH2cRequestOf pg d s.p.cb).1 }
  | .worker =>
      let q := qdmaThreadWrkProcOf pg s.q
      { s with
        q := q
        later := s.later ++ stretch s.q.conf.rngsz q.desc.slot s.q.pidx q.pidx }
  | .other d => { s with q := d }

/-- An ST H2C queue. -/
def Descq.IsStH2c (d : Descq) : Prop := d.conf.st = true ∧ d.conf.c2h = false

/-- A pass is made on any queue that has the request on its `work_list`, a pass of the worker
counts once the request has moved, and everything else keeps the ring in order and puts no block
of the request on `work_list`. -/
def StLegal (s : StRun) : StLabel → Prop
  | .pass d => s.p.Ready d ∧ d.IsStH2c
  | .worker => s.p.moved = true
  | .other d => RingFit d ∧ d.IsStH2c ∧
      (s.p.cb.id ∈ d.workList.map SgtReqCb.id → s.p.cb.id ∈ s.q.workList.map SgtReqCb.id)

/-- The free descriptors the passes for the request found. -/
def StLabel.avail : StLabel → ℕ
  | .pass d => d.avail
  | _ => 0

/-- **The request is covered exactly**: its passes have posted one descriptor for each of the
first entries, in order, as many as they found room for; the next pass goes on with the entry
behind them; the request is on `pend_list` exactly if all entries are posted, and nothing is
posted for it from then on. -/
structure StCovered (req : Request) (id : ℕ) (evs : List StLabel) (s : StRun) : Prop where
  posted : List.Forall₂ Desc.Carries s.p.out (req.sgl.take s.p.out.length)
  count : s.p.out.length = min req.sgl.length (evs.map StLabel.avail).sum
  resumes : s.p.moved = false → resumeAt s.p.cb = some (s.p.out.length, 0)
  moved : s.p.moved = true ↔ s.p.out.length = req.sgl.length
  later : ∀ x ∈ s.later, x.owner ≠ some id

/-! ## Entries and descriptors -/

theorem UserBuf.le {pg : ℕ} {req : Request} (h : UserBuf pg req) :
    ∀ sg ∈ req.sgl, sg.len ≤ pg := by
  intro sg hsg
  rcases h.shape with ⟨sg', hone, hlen⟩ | ⟨-, hall⟩
  · rw [hone, List.mem_singleton] at hsg
    rw [hsg, hlen]
    exact Nat.zero_le _
  · exact (hall sg hsg).2

theorem UserBuf.ne_nil {pg : ℕ} {req : Request} (h : UserBuf pg req) : req.sgl ≠ [] := by
  rcases h.shape with ⟨sg, hone, -⟩ | ⟨hne, -⟩
  · rw [hone]
    exact List.cons_ne_nil _ _
  · exact hne

/-- An entry that fits a page is one piece. -/
theorem stPiecesOf_of_le {pg : ℕ} {sg : SwSg} (last : Bool) (h : sg.len ≤ pg) :
    stPiecesOf pg sg last = [⟨sg.len, sg.dmaAddr, last⟩] := by
  unfold stPiecesOf
  by_cases h0 : sg.len = 0
  · rw [if_pos h0, h0]
  · obtain ⟨n, hn⟩ : ∃ n, sg.len = n + 1 := ⟨sg.len - 1, by omega⟩
    rw [if_neg h0, hn, cut, if_neg (Nat.succ_ne_zero n), Nat.min_eq_left (hn ▸ h), Nat.sub_self,
      cut_zero]

/-- Entries that fit a page are one piece each. -/
theorem stSglPiecesOf_range {pg : ℕ} {sgl : List SwSg} (h : ∀ sg ∈ sgl, sg.len ≤ pg) :
    (stSglPiecesOf pg sgl).map Piece.range = sgl.map SwSg.range := by
  induction sgl with
  | nil => rfl
  | cons sg sgl ih =>
      rw [stSglPiecesOf, stPiecesOf_of_le _ (h sg (List.mem_cons_self ..)), List.singleton_append,
        List.map_cons, List.map_cons, ih (fun x hx => h x (List.mem_cons_of_mem _ hx))]
      rfl

/-- The entries posted are told by their bytes, empty ones apart. -/
theorem sglLen_take_inj {sgl : List SwSg} (hpos : ∀ sg ∈ sgl, 0 < sg.len) {j k : ℕ}
    (hj : j ≤ sgl.length) (hk : k ≤ sgl.length) (h : sglLen (sgl.take j) = sglLen (sgl.take k)) :
    j = k := by
  induction sgl generalizing j k with
  | nil =>
      rw [List.length_nil] at hj hk
      omega
  | cons sg sgl ih =>
      have hsg := hpos sg (List.mem_cons_self ..)
      cases j with
      | zero =>
          cases k with
          | zero => rfl
          | succ k =>
              rw [List.take_zero, sglLen_nil, List.take_succ_cons, sglLen_cons] at h
              omega
      | succ j =>
          cases k with
          | zero =>
              rw [List.take_zero, sglLen_nil, List.take_succ_cons, sglLen_cons] at h
              omega
          | succ k =>
              rw [List.take_succ_cons, List.take_succ_cons, sglLen_cons, sglLen_cons] at h
              rw [List.length_cons] at hj hk
              have hjk := ih (fun x hx => hpos x (List.mem_cons_of_mem _ hx))
                (show j ≤ sgl.length by omega) (show k ≤ sgl.length by omega) (by omega)
              rw [hjk]

/-- The offset has reached the count exactly if the last entry is posted; an empty entry must
have been posted at all. -/
theorem UserBuf.count_iff {pg : ℕ} {req : Request} (h : UserBuf pg req) {k : ℕ}
    (hk : k ≤ req.sgl.length) (h0 : 0 < k) :
    sglLen (req.sgl.take k) = req.count ↔ k = req.sgl.length := by
  have hall : sglLen (req.sgl.take req.sgl.length) = req.count := by
    rw [List.take_length, h.total]
  rcases h.shape with ⟨sg, hone, hlen⟩ | ⟨-, hpos⟩
  · rw [hone, List.length_singleton] at hk
    obtain rfl : k = req.sgl.length := by rw [hone, List.length_singleton]; omega
    exact iff_of_true hall rfl
  · rw [← hall]
    exact ⟨sglLen_take_inj (fun sg hsg => (hpos sg hsg).1) hk le_rfl, fun heq => by rw [heq]⟩

/-- **A pass goes on with the entry behind the last one posted.** -/
theorem UserBuf.resumeAt {pg : ℕ} {cb : SgtReqCb} (h : UserBuf pg cb.req) {k : ℕ}
    (hk : k < cb.req.sgl.length) (hoff : cb.offset = sglLen (cb.req.sgl.take k)) :
    Qdma.resumeAt cb = some (k, 0) := by
  rcases h.shape with ⟨sg, hone, hlen⟩ | ⟨-, hpos⟩
  · rw [hone, List.length_singleton] at hk
    obtain rfl : k = 0 := by omega
    rw [List.take_zero, sglLen_nil] at hoff
    rw [Qdma.resumeAt, if_neg (not_not.mpr hoff)]
  · have hlt : cb.offset < cb.req.count := by
      have hle := sglLen_take_le cb.req.sgl k
      have hne : sglLen (cb.req.sgl.take k) ≠ sglLen (cb.req.sgl.take cb.req.sgl.length) := by
        intro heq
        have := sglLen_take_inj (fun sg hsg => (hpos sg hsg).1) hk.le le_rfl heq
        omega
      rw [List.take_length] at hne
      rw [hoff, ← h.total]
      omega
    obtain ⟨i, hi, hlen, -⟩ := resumeAt_atEntry ⟨h.total, ⟨k, hoff⟩, .inr hlt⟩
    have hin : i < cb.req.sgl.length := by
      by_contra hge
      rw [List.take_of_length_le (by omega), h.total] at hlen
      omega
    rw [hi, sglLen_take_inj (fun sg hsg => (hpos sg hsg).1) hin.le hk.le (hlen.trans hoff)]

/-! ## One pass -/

/-- **What the passes keep**: the entries posted are the first ones. -/
structure StInv (req : Request) (id : ℕ) (s : Passes) : Prop where
  id_eq : s.cb.id = id
  req_eq : s.cb.req = req
  posted : List.Forall₂ Desc.Carries s.out (req.sgl.take s.out.length)
  le : s.out.length ≤ req.sgl.length
  offset : s.cb.offset = sglLen (req.sgl.take s.out.length)
  moved : s.moved = true ↔ s.out.length = req.sgl.length

/-- The descriptors of a pass carry the entries it posts. -/
theorem carries_entries {d d' : Descq} {ps : List Piece} {entries : List SwSg}
    (hp : d.pidx < d.conf.rngsz) (hlen : ps.length < d.conf.rngsz)
    (hrange : ps.map Piece.range = entries.map SwSg.range) (h : StCarried d d' ps) :
    List.Forall₂ Desc.Carries
      (stretch d.conf.rngsz d'.desc.slot d.pidx (adv d.conf.rngsz d.pidx ps.length)) entries := by
  have hsame : ps.length = entries.length := by
    simpa using congrArg List.length hrange
  rw [List.forall₂_iff_get]
  refine ⟨by rw [length_stretch, dist_adv hp hlen, hsame], ?_⟩
  intro j h1 h2
  rw [List.get_eq_getElem, List.get_eq_getElem, getElem_stretch]
  obtain ⟨haddr, hl, hpld⟩ := h j (by omega)
  have hj : (ps.map Piece.range)[j]? = (entries.map SwSg.range)[j]? := by rw [hrange]
  rw [List.getElem?_map, List.getElem?_map, List.getElem?_eq_getElem (show j < ps.length by omega),
    List.getElem?_eq_getElem h2] at hj
  have hpair := Option.some.inj hj
  have haddr' : ps[j].addr = entries[j].dmaAddr := congrArg Prod.fst hpair
  have hlen' : ps[j].len = entries[j].len := congrArg Prod.snd hpair
  exact ⟨haddr.trans haddr', hl.trans hlen', hpld.trans hlen'⟩

/-- **A pass posts the entries that come next**, as many as it finds room for. -/
theorem StInv.step {pg : ℕ} (hpg : 0 < pg) (h16 : pg < 2 ^ 16) {req : Request}
    (hbuf : UserBuf pg req) {id : ℕ} {s : Passes} {d : Descq} (h : StInv req id s)
    (hd : s.Ready d) (hst : d.IsStH2c) :
    StInv req id (s.step (descqProcStH2cRequestOf pg) d) ∧
      (s.step (descqProcStH2cRequestOf pg) d).out.length
        = min req.sgl.length (s.out.length + d.avail) := by
  by_cases h0 : d.avail = 0
  · have hrun : descqProcStH2cRequestOf pg d s.cb = (d, 0) := by
      unfold descqProcStH2cRequestOf
      simp only [if_pos h0]
    rw [Passes.step_same hd hrun, h0]
    exact ⟨⟨h.id_eq, h.req_eq, h.posted, h.le, h.offset, h.moved⟩, (min_eq_right h.le).symm⟩
  obtain rfl := h.req_eq
  -- the request is under way, so that an entry is left
  have hk : s.out.length < s.cb.req.sgl.length := by
    have hne : s.out.length ≠ s.cb.req.sgl.length := by
      intro heq
      have hmoved := hd.going.1
      rw [h.moved.mpr heq] at hmoved
      cases hmoved
    have := h.le
    omega
  have ha := hd.avail_lt
  -- the entries posted are the next ones, one slot each
  set entries := (s.cb.req.sgl.drop s.out.length).take d.avail with hentries
  obtain ⟨d', hrun, hpost, hcar⟩ := stRequest_posted hpg h16 hst.1 hd.pidx_lt hd.avail_lt hd.rung
    h0 (hbuf.resumeAt hk h.offset) rfl
  set ps := (stSglPiecesOf pg (s.cb.req.sgl.drop s.out.length)).take d.avail with hps
  have hrange : ps.map Piece.range = entries.map SwSg.range := by
    rw [hps, hentries, List.map_take, List.map_take,
      stSglPiecesOf_range (fun sg hsg => hbuf.le sg (List.mem_of_mem_drop hsg))]
  have hlen : ps.length = entries.length := by simpa using congrArg List.length hrange
  have hbytes : bytes ps = sglLen entries := by
    rw [← total_pieces, hrange, total_sgl]
  have hcount : entries.length = min d.avail (s.cb.req.sgl.length - s.out.length) := by
    rw [hentries, List.length_take, List.length_drop]
  have hn : ps.length < d.conf.rngsz := by omega
  have hnew := carries_entries hd.pidx_lt hn hrange hcar
  rw [Passes.step_posted hd hrun hpost]
  set new := stretch d.conf.rngsz d'.desc.slot d.pidx (adv d.conf.rngsz d.pidx ps.length)
    with hnewdef
  have hnewlen : new.length = entries.length := hnew.length_eq
  have htake : s.cb.req.sgl.take (s.out.length + entries.length)
      = s.cb.req.sgl.take s.out.length ++ entries := by
    rw [List.take_add, hentries, List.length_take, ← List.take_eq_take_min]
  -- the offset is the sum of the entries posted and does not wrap
  have hoff : (s.cb.charge ps.length (bytes ps)).offset
      = sglLen (s.cb.req.sgl.take (s.out.length + entries.length)) := by
    have hle := sglLen_take_le s.cb.req.sgl (s.out.length + entries.length)
    have hlt := s.cb.req.count_lt
    have hsum : sglLen (s.cb.req.sgl.take (s.out.length + entries.length))
        = s.cb.offset + bytes ps := by
      rw [htake, h.offset, hbytes, sglLen, List.map_append, List.sum_append]
      rfl
    rw [hsum] at hle ⊢
    rw [hbuf.total] at hle
    exact u32_of_lt (by omega)
  have hout : (s.out ++ new).length = s.out.length + entries.length := by
    rw [List.length_append, hnewlen]
  refine ⟨⟨h.id_eq, rfl, ?_, ?_, ?_, ?_⟩, ?_⟩
  · rw [hout, htake]
    exact List.rel_append h.posted hnew
  · rw [hout]
    omega
  · rw [hout]
    exact hoff
  · rw [hout]
    simp only [decide_eq_true_eq, hoff]
    exact hbuf.count_iff (by omega) (by omega)
  · rw [hout]
    omega

/-! ## Passes of the worker -/

/-- `d'` is `d` with `k` more slots written and rung for, none of them for the request `id`, and
no block added to its `work_list`. -/
structure Pushes (id : ℕ) (d d' : Descq) (k : ℕ) : Prop where
  conf : d'.conf = d.conf
  pidx : d'.pidx = adv d.conf.rngsz d.pidx k
  avail : d'.avail + k = d.avail
  rung : d'.regs.pidx = d'.pidx
  old : ∀ j, k < j → j < d.conf.rngsz →
    d'.desc.slot (adv d.conf.rngsz d.pidx j) = d.desc.slot (adv d.conf.rngsz d.pidx j)
  foreign : ∀ j < k, (d'.desc.slot (adv d.conf.rngsz d.pidx j)).owner ≠ some id
  work : d'.workList.map SgtReqCb.id ⊆ d.workList.map SgtReqCb.id

theorem Pushes.fit {id k : ℕ} {d d' : Descq} (hd : RingFit d) (h : Pushes id d d' k) :
    RingFit d' := by
  have hp := hd.pidx_lt
  have ha := hd.avail_lt
  have hk := h.avail
  refine ⟨?_, ?_, h.rung⟩
  · rw [h.conf, h.pidx]
    exact adv_lt (by omega)
  · rw [h.conf]
    omega

theorem Pushes.refl {d : Descq} (hd : RingFit d) (id : ℕ) : Pushes id d d 0 :=
  ⟨rfl, (adv_zero hd.pidx_lt).symm, rfl, hd.rung, fun _ _ _ => rfl, fun j hj => by omega,
    fun _ hx => hx⟩

theorem Pushes.trans {id k l : ℕ} {a b c : Descq} (hd : RingFit a) (h : Pushes id a b k)
    (h' : Pushes id b c l) : Pushes id a c (k + l) := by
  have ha := hd.avail_lt
  have hk := h.avail
  have hl := h'.avail
  have hp := hd.pidx_lt
  -- a slot as seen from either end
  have hslot : ∀ j, k ≤ j → adv a.conf.rngsz a.pidx j = adv b.conf.rngsz b.pidx (j - k) := by
    intro j hj
    rw [h.conf, h.pidx, adv_adv, Nat.add_sub_cancel' hj]
  have hlap : ∀ j < k, adv a.conf.rngsz a.pidx j
      = adv b.conf.rngsz b.pidx (a.conf.rngsz - k + j) := by
    intro j hj
    rw [h.conf, h.pidx, adv_adv, show k + (a.conf.rngsz - k + j) = a.conf.rngsz + j by omega]
    unfold adv
    rw [show a.pidx + (a.conf.rngsz + j) = a.pidx + j + a.conf.rngsz by omega, Nat.add_mod_right]
  refine ⟨h'.conf.trans h.conf, ?_, by omega, h'.rung, ?_, ?_, fun _ hx => h.work (h'.work hx)⟩
  · rw [h'.pidx, h.conf, h.pidx, adv_adv]
  · intro j hj hjn
    rw [← h.old j (by omega) hjn, hslot j (by omega)]
    exact h'.old _ (by omega) (by rw [h.conf]; omega)
  · intro j hj
    by_cases hjk : j < k
    · have hold := h'.old (a.conf.rngsz - k + j) (by omega) (by rw [h.conf]; omega)
      rw [← hlap j hjk] at hold
      rw [hold]
      exact h.foreign j hjk
    · rw [hslot j (by omega)]
      exact h'.foreign (j - k) (by omega)

/-- What leaves the ring alone and adds nothing to `work_list` pushes nothing. -/
theorem Pushes.same {id k : ℕ} {a b c : Descq} (h : Pushes id a b k) (hs : SameRing b c)
    (hwork : c.workList.map SgtReqCb.id ⊆ b.workList.map SgtReqCb.id) : Pushes id a c k := by
  obtain ⟨hconf, hpidx, -, havail, hdesc, hregs⟩ := hs
  refine ⟨hconf.trans h.conf, hpidx.trans h.pidx, by rw [havail]; exact h.avail, ?_, ?_, ?_,
    fun _ hx => h.work (hwork hx)⟩
  · rw [hregs, hpidx]
    exact h.rung
  · rw [hdesc]
    exact h.old
  · rw [hdesc]
    exact h.foreign

theorem listDel_work (d : Descq) (id : ℕ) :
    (d.listDel id).workList.map SgtReqCb.id ⊆ d.workList.map SgtReqCb.id :=
  List.map_subset _ (List.filter_subset_self _)

theorem chargeRequest_work (d : Descq) (cb : SgtReqCb) (n b : ℕ) :
    (chargeRequest d cb n b).workList.map SgtReqCb.id ⊆ d.workList.map SgtReqCb.id := by
  have hset : (updCb (cb.charge n b) d.workList).map SgtReqCb.id ⊆ d.workList.map SgtReqCb.id := by
    rw [updCb_ids]
    exact fun _ hx => hx
  unfold chargeRequest
  simp only
  split_ifs
  · exact List.Subset.trans (listDel_work _ _) hset
  · exact hset

/-- A call for another request writes slots for that request only. -/
theorem stRequest_pushes {pg : ℕ} (hpg : 0 < pg) (h16 : pg < 2 ^ 16) {id : ℕ} {d : Descq}
    {cb : SgtReqCb} (hd : RingFit d) (hst : d.IsStH2c) (hcb : cb.id ≠ id) :
    ∃ k, Pushes id d (descqProcStH2cRequestOf pg d cb).1 k := by
  have hrefl := Pushes.refl hd id
  by_cases h0 : d.avail = 0
  · unfold descqProcStH2cRequestOf
    rw [if_pos h0]
    exact ⟨0, hrefl⟩
  cases hr : resumeAt cb with
  | none =>
      unfold descqProcStH2cRequestOf
      simp only [if_neg h0, hr]
      exact ⟨0, hrefl⟩
  | some p =>
      obtain ⟨i, off⟩ := p
      obtain ⟨d', hrun, hpost, -⟩ := stRequest_posted hpg h16 hst.1 hd.pidx_lt hd.avail_lt hd.rung
        h0 hr rfl
      set ps := (stSglPiecesOf pg (cb.req.sgl.drop i)).take d.avail with hps
      have hle : ps.length ≤ d.avail := by
        rw [hps, List.length_take]
        exact min_le_left _ _
      have ha := hd.avail_lt
      obtain ⟨hconf, hpidx, -, havail, hdesc, hregs⟩ :=
        chargeRequest_frame d' cb ps.length (bytes ps)
      have hframe := hpost.frame
      rw [hrun]
      refine ⟨ps.length, ?_, hpidx.trans hpost.pidx, ?_, ?_, ?_, ?_, ?_⟩
      · rw [hconf, hframe]
        rfl
      · have hsame : d'.avail = d.avail := by
          rw [hframe]
          rfl
        rw [havail]
        show d'.avail - ps.length + ps.length = d.avail
        omega
      · rw [hregs, hpidx]
        show d'.regs.pidx = d'.pidx
        rw [hframe]
        rfl
      · intro j hj hjn
        rw [hdesc]
        exact hpost.old j hj.le (by omega) hjn
      · intro j hj
        rw [hdesc]
        show (d'.desc.slot _).owner ≠ some id
        rw [hpost.owner j hj]
        exact fun heq => hcb (Option.some.inj heq)
      · refine List.Subset.trans (chargeRequest_work d' cb _ _) ?_
        rw [hframe]
        exact fun _ hx => hx

/-- **A pass of the worker posts nothing for a request that is not on `work_list`.** -/
theorem wrkProcLoopOf_pushes {pg : ℕ} (hpg : 0 < pg) (h16 : pg < 2 ^ 16) {id : ℕ}
    (cbs : List SgtReqCb) (hcbs : ∀ cb ∈ cbs, cb.id ≠ id) {d : Descq} (hd : RingFit d)
    (hst : d.IsStH2c) : ∃ k, Pushes id d (wrkProcLoopOf pg cbs d) k := by
  induction cbs generalizing d with
  | nil => exact ⟨0, Pushes.refl hd id⟩
  | cons cb cbs ih =>
      have hproc : qdmaDescqProcSgtRequestOf pg d cb = descqProcStH2cRequestOf pg d cb := by
        unfold qdmaDescqProcSgtRequestOf
        rw [hst.1, hst.2]
        rfl
      obtain ⟨k, hk⟩ := stRequest_pushes hpg h16 hd hst (hcbs cb (List.mem_cons_self ..))
      rw [wrkProcLoopOf, hproc]
      simp only
      generalize hone : (if (descqProcStH2cRequestOf pg d cb).2 < 0 then
        qdmaSgtReqDone (descqProcStH2cRequestOf pg d cb).1 cb (descqProcStH2cRequestOf pg d cb).2
        else (descqProcStH2cRequestOf pg d cb).1) = e
      have he : Pushes id d e k := by
        rw [← hone]
        split_ifs
        · exact hk.same (sameRing_done _ _ _) (listDel_work _ _)
        · exact hk
      split_ifs
      · exact ⟨k, he⟩
      · have hst' : e.IsStH2c := by
          unfold Descq.IsStH2c
          rw [he.conf]
          exact hst
        obtain ⟨l, hl⟩ := ih (fun c hc => hcbs c (List.mem_cons_of_mem _ hc)) (he.fit hd) hst'
        exact ⟨k + l, he.trans hd hl⟩

/-! ## The law over all steps -/

/-- A request that is charged to its count leaves `work_list`. -/
theorem chargeRequest_off {d : Descq} {cb : SgtReqCb} {n b : ℕ}
    (h : (cb.charge n b).offset = cb.req.count) :
    cb.id ∉ (chargeRequest d cb n b).workList.map SgtReqCb.id := by
  have hcount : (cb.charge n b).offset = (cb.charge n b).req.count := h
  unfold chargeRequest
  simp only
  rw [if_pos hcount]
  intro hmem
  obtain ⟨c, hc, hid⟩ := List.mem_map.mp hmem
  exact of_decide_eq_true (List.mem_filter.mp hc).2 hid

/-- **What all steps keep**: once the request has moved it is off `work_list`. -/
structure StRunInv (req : Request) (id : ℕ) (s : StRun) : Prop where
  p : StInv req id s.p
  off : s.p.moved = true →
    RingFit s.q ∧ s.q.IsStH2c ∧ id ∉ s.q.workList.map SgtReqCb.id
  later : ∀ x ∈ s.later, x.owner ≠ some id

/-- The pass that moves a request takes it off `work_list`. -/
theorem StInv.off {pg : ℕ} (hpg : 0 < pg) (h16 : pg < 2 ^ 16) {req : Request}
    (hbuf : UserBuf pg req) {id : ℕ} {s : Passes} {d : Descq} (h : StInv req id s)
    (hd : s.Ready d) (hst : d.IsStH2c)
    (hmoved : (s.step (descqProcStH2cRequestOf pg) d).moved = true) :
    RingFit (descqProcStH2cRequestOf pg d s.cb).1 ∧
      (descqProcStH2cRequestOf pg d s.cb).1.IsStH2c ∧
      id ∉ (descqProcStH2cRequestOf pg d s.cb).1.workList.map SgtReqCb.id := by
  obtain ⟨k, hk⟩ := stRequest_pushes hpg h16 hd.toRingFit hst
    (show s.cb.id ≠ s.cb.id + 1 by omega)
  refine ⟨hk.fit hd.toRingFit, ?_, ?_⟩
  · unfold Descq.IsStH2c
    rw [hk.conf]
    exact hst
  obtain ⟨hinv, hlen⟩ := h.step hpg h16 hbuf hd hst
  obtain rfl := h.req_eq
  obtain rfl := h.id_eq
  by_cases h0 : d.avail = 0
  · -- no room: the request has not moved
    have hrun : descqProcStH2cRequestOf pg d s.cb = (d, 0) := by
      unfold descqProcStH2cRequestOf
      simp only [if_pos h0]
    rw [Passes.step_same hd hrun] at hmoved
    exact absurd (hmoved.symm.trans hd.going.1) (by decide)
  · have hk : s.out.length < s.cb.req.sgl.length := by
      have hne : s.out.length ≠ s.cb.req.sgl.length := by
        intro heq
        exact absurd ((h.moved.mpr heq).symm.trans hd.going.1) (by decide)
      have := h.le
      omega
    obtain ⟨d', hrun, hpost, -⟩ := stRequest_posted hpg h16 hst.1 hd.pidx_lt hd.avail_lt hd.rung
      h0 (hbuf.resumeAt hk h.offset) rfl
    rw [Passes.step_posted hd hrun hpost, decide_eq_true_iff] at hmoved
    rw [hrun]
    exact chargeRequest_off hmoved

/-- **Every step keeps the invariant.** -/
theorem StRunInv.step {pg : ℕ} (hpg : 0 < pg) (h16 : pg < 2 ^ 16) {req : Request}
    (hbuf : UserBuf pg req) {id : ℕ} {s : StRun} {l : StLabel} (h : StRunInv req id s)
    (hl : StLegal s l) : StRunInv req id (s.step pg l) := by
  obtain ⟨hp, hoff, hlater⟩ := h
  cases l with
  | pass d =>
      obtain ⟨hd, hst⟩ := hl
      exact ⟨(hp.step hpg h16 hbuf hd hst).1, hp.off hpg h16 hbuf hd hst, hlater⟩
  | worker =>
      obtain ⟨hfit, hst, hnot⟩ := hoff hl
      have hcbs : ∀ cb ∈ s.q.workList, cb.id ≠ id := by
        intro cb hcb heq
        exact hnot (heq ▸ List.mem_map_of_mem hcb)
      obtain ⟨k, hk⟩ := wrkProcLoopOf_pushes hpg h16 s.q.workList hcbs hfit hst
      have ha := hfit.avail_lt
      have hka := hk.avail
      refine ⟨hp, fun _ => ⟨hk.fit hfit, ?_, fun hmem => hnot (hk.work hmem)⟩, ?_⟩
      · show (qdmaThreadWrkProcOf pg s.q).IsStH2c
        unfold Descq.IsStH2c qdmaThreadWrkProcOf
        rw [hk.conf]
        exact hst
      · intro x hx
        rcases List.mem_append.mp hx with hx | hx
        · exact hlater x hx
        · obtain ⟨j, hj, hslot⟩ := List.mem_map.mp hx
          have hlt := List.mem_range.mp hj
          unfold qdmaThreadWrkProcOf at hlt hslot
          rw [hk.pidx, dist_adv hfit.pidx_lt (by omega)] at hlt
          rw [← hslot]
          exact hk.foreign j hlt
  | other d =>
      obtain ⟨hfit, hst, hwork⟩ := hl
      refine ⟨hp, fun hmoved => ⟨hfit, hst, fun hmem => ?_⟩, hlater⟩
      rw [← hp.id_eq] at hmem
      have hback := hwork hmem
      rw [hp.id_eq] at hback
      exact (hoff hmoved).2.2 hback

/-- **An ST H2C request over a user buffer is covered exactly**, whatever rings its passes find
and however long the run. -/
theorem st_covered {pg : ℕ} (hpg : 0 < pg) (hmax : pg ≤ 32768) {req : Request}
    (hbuf : UserBuf pg req) (id : ℕ) (q : Descq) {evs : List StLabel} {s : StRun}
    (h : Run (StRun.step pg) StLegal { p := req.unserved id, q := q } evs s) :
    StCovered req id evs s := by
  have h16 : pg < 2 ^ 16 := by omega
  have hall : StRunInv req id s ∧
      s.p.out.length = min req.sgl.length (evs.map StLabel.avail).sum := by
    induction h with
    | nil =>
        have hpos := List.length_pos_iff.mpr hbuf.ne_nil
        refine ⟨⟨⟨rfl, rfl, .nil, Nat.zero_le _, rfl, ?_⟩, ?_, ?_⟩, (Nat.min_zero _).symm⟩
        · exact iff_of_false (show ¬ false = true by decide) hpos.ne
        · exact fun hmoved => absurd hmoved (show ¬ false = true by decide)
        · exact fun x hx => absurd hx List.not_mem_nil
    | @snoc evs s l _ hl ih =>
        obtain ⟨hinv, hcount⟩ := ih
        refine ⟨hinv.step hpg h16 hbuf hl, ?_⟩
        rw [List.map_append, List.sum_append, List.map_singleton, List.sum_singleton]
        cases l with
        | pass d =>
            refine (hinv.p.step hpg h16 hbuf hl.1 hl.2).2.trans ?_
            rw [hcount]
            show min _ (_ + d.avail) = min _ (_ + d.avail)
            omega
        | worker => exact hcount
        | other d => exact hcount
  obtain ⟨hinv, hcount⟩ := hall
  refine ⟨hinv.p.posted, hcount, fun hmoved => ?_, hinv.p.moved, hinv.later⟩
  have hk : s.p.out.length < s.p.cb.req.sgl.length := by
    have hne : s.p.out.length ≠ req.sgl.length := by
      intro heq
      exact absurd ((hinv.p.moved.mpr heq).symm.trans hmoved) (by decide)
    have := hinv.p.le
    rw [hinv.p.req_eq]
    omega
  have hbuf' : UserBuf pg s.p.cb.req := by rw [hinv.p.req_eq]; exact hbuf
  exact hbuf'.resumeAt hk (by rw [hinv.p.req_eq]; exact hinv.p.offset)

/-! ## A request in two passes -/

/-- A write of a buffer that lies on two pages of 32 KiB. -/
def pagePair : Request where
  write := true
  count := 32769
  epAddr := 0
  dmaMapped := true
  fpDone := true
  sgl := [⟨0, 0, 32768, 65536⟩, ⟨1, 0, 1, 131072⟩]

/-- An ST H2C queue of eight slots on which the next pass of `cb` finds `avail` free. -/
def stRingFor (cb : SgtReqCb) (avail : ℕ) : Descq :=
  { conf := { rngsz := 8, st := true }, avail := avail, workList := [cb] }

theorem stRingFor_ready {s : Passes} (h : s.moved = false ∧ 0 ≤ s.rv) {avail : ℕ}
    (ha : avail < 8) : s.Ready (stRingFor s.cb avail) ∧ (stRingFor s.cb avail).IsStH2c :=
  ⟨⟨⟨Nat.zero_lt_succ 7, ha, rfl⟩, h, List.mem_singleton.mpr rfl, List.nodup_singleton _⟩,
    rfl, rfl⟩

/-- The first pass finds one slot, the second the rest, and the worker comes by once more. -/
def twoPasses : List StLabel :=
  let half := (pagePair.unserved 0).step (descqProcStH2cRequestOf 32768)
    (stRingFor (pagePair.newCb 0) 1)
  [.pass (stRingFor (pagePair.newCb 0) 1), .pass (stRingFor half.cb 7), .worker]

theorem st_covered_twice :
    StCovered pagePair 0 twoPasses
      (twoPasses.foldl (StRun.step 32768) { p := pagePair.unserved 0, q := {} }) := by
  have hbuf : UserBuf 32768 pagePair := ⟨rfl, .inr (by decide)⟩
  have hfirst := stRingFor_ready (s := pagePair.unserved 0) ⟨rfl, le_refl 0⟩
    (show 1 < 8 by decide)
  have hsecond := stRingFor_ready
    (s := (pagePair.unserved 0).step (descqProcStH2cRequestOf 32768)
      (stRingFor (pagePair.newCb 0) 1))
    (by decide +kernel) (show 7 < 8 by decide)
  have hrun : Run (StRun.step 32768) StLegal { p := pagePair.unserved 0, q := {} } twoPasses
      (twoPasses.foldl (StRun.step 32768) { p := pagePair.unserved 0, q := {} }) := by
    refine Run.snoc (Run.snoc (Run.one ?_) ?_) ?_
    · exact hfirst
    · exact hsecond
    · show (_ : Bool) = true
      decide +kernel
  exact st_covered (by decide) (le_refl _) hbuf 0 {} hrun

/-! ## The other operations of a queue -/

theorem reqUpdatePendLoop_work (cbs : List SgtReqCb) (credit : ℕ) (d : Descq) :
    (reqUpdatePendLoop cbs credit d).1.workList.map SgtReqCb.id
      ⊆ d.workList.map SgtReqCb.id := by
  induction cbs generalizing credit d with
  | nil => exact fun _ hx => hx
  | cons cb cbs ih =>
      rw [reqUpdatePendLoop]
      simp only
      generalize hone : (if credit ≥ cb.descNr then (qdmaSgtReqDone d cb 0, credit - cb.descNr)
        else (d.setCb { cb with descNr := cb.descNr - credit }, 0)) = r
      have hr : r.1.workList.map SgtReqCb.id ⊆ d.workList.map SgtReqCb.id := by
        rw [← hone]
        split_ifs
        · exact listDel_work _ _
        · show (updCb _ d.workList).map SgtReqCb.id ⊆ _
          rw [updCb_ids]
          exact fun _ hx => hx
      split_ifs
      · exact hr
      · exact List.Subset.trans (ih _ _) hr

theorem reqUpdatePend_work (d : Descq) (credit : ℕ) :
    (reqUpdatePend d credit).workList.map SgtReqCb.id ⊆ d.workList.map SgtReqCb.id :=
  reqUpdatePendLoop_work d.pendList _ d

theorem descqWbCredit_work (d : Descq) (cidx : ℕ) :
    (descqWbCredit d cidx).1.workList = d.workList := by
  unfold descqWbCredit
  by_cases h : cidx = d.cidx
  · rw [if_pos h]
  · rw [if_neg h]

theorem descqMmNH2cWb_work (d : Descq) :
    (descqMmNH2cWb d).workList.map SgtReqCb.id ⊆ d.workList.map SgtReqCb.id := by
  unfold descqMmNH2cWb
  by_cases hempty : d.pidx = d.cidx
  · rw [if_pos hempty]
    exact fun _ hx => hx
  · rw [if_neg hempty]
    by_cases hsame : d.desc.wbCidx = d.cidx
    · simp only [if_pos hsame]
      exact fun _ hx => hx
    · simp only [if_neg hsame, descqC2hPidxUpdate, descqH2cPidxUpdate, ite_self]
      rw [← descqWbCredit_work d d.desc.wbCidx]
      exact reqUpdatePend_work _ _

/-- **Nothing but a submission puts a block on `work_list`**, and that block is a new one: the
other operations of a queue are steps the law allows for. -/
theorem sys_puts_nothing_back {s : Sys} {l : Label} (hl : l ≠ .worker) {id : ℕ}
    (hid : id < s.nreq) (h : id ∈ (s.step l).q.workList.map SgtReqCb.id) :
    id ∈ s.q.workList.map SgtReqCb.id := by
  cases l with
  | worker => exact absurd rfl hl
  | hw c => exact h
  | wb => exact descqMmNH2cWb_work s.q h
  | wait i =>
      change id ∈ (qdmaRequestWaitForCmpl s.q i).1.workList.map SgtReqCb.id at h
      unfold qdmaRequestWaitForCmpl at h
      cases hdone : s.q.doneCb i with
      | none =>
          rw [hdone] at h
          exact listDel_work _ _ h
      | some cb =>
          rw [hdone] at h
          exact h
  | submit req mapped =>
      change id ∈ (s.submit req mapped).q.workList.map SgtReqCb.id at h
      rw [submit_q] at h
      unfold qdmaRequestSubmit at h
      split_ifs at h with h1 h2 h3
      · exact h
      · exact h
      · exact h
      · change id ∈ (s.q.workList ++ [req.newCb s.nreq]).map SgtReqCb.id at h
        rw [List.map_append] at h
        rcases List.mem_append.mp h with h | h
        · exact h
        · rw [List.map_singleton, List.mem_singleton] at h
          change id = s.nreq at h
          omega

end Qdma
