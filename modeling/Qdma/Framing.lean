/-
# Packet framing on an ST H2C queue

Each descriptor handed to the device is to carry the SOP flag exactly when it is the
first of its request and the EOP flag exactly when it is the last.  The code ORs both
flags into slots it never clears, takes every piece of the last scatter entry for the
last descriptor, and takes a request whose `offset` is 0 for one not begun.

`packet_framing` names the passes in which this comes to the right flags (`PassFramed`)
and carries the framing through every run made of such passes; `stale_eop_flag` is a run
in which it does not.
-/
import Qdma.Credit

namespace Qdma

open RingIndex Blocks Exec

/-! ## The law -/

/-- The number of descriptors an ST H2C request takes. -/
def Request.descTotal (req : Request) : ℕ := (sglPieces true req.sgl).length

/-- How many of the descriptors `ds` are those of request `id`. -/
def countOf (ds : List Desc) (id : ℕ) : ℕ := (ds.map Desc.owner).count (some id)

/-- The flags of the `k`-th descriptor of `req`, counted from 0. -/
structure FramedAt (req : Request) (k : ℕ) (d : Desc) : Prop where
  sop : d.h2c.flags.testBit 0 = true ↔ k = 0
  eop : d.h2c.flags.testBit 1 = true ↔ k + 1 = req.descTotal

/-- **Every descriptor handed to the device is framed**, `reqs` being the requests
submitted, by identity. -/
def Framed (reqs : List Request) (handed : List Desc) : Prop :=
  ∀ j (h : j < handed.length), ∃ id req, handed[j].owner = some id ∧ reqs[id]? = some req ∧
    FramedAt req (countOf (handed.take j) id) handed[j]

theorem countOf_append (ds es : List Desc) (id : ℕ) :
    countOf (ds ++ es) id = countOf ds id + countOf es id := by
  unfold countOf
  rw [List.map_append, List.count_append]

/-- Descriptors of one request count for that request only. -/
theorem countOf_owned {ds : List Desc} {id : ℕ} (h : ∀ d ∈ ds, d.owner = some id) (i : ℕ) :
    countOf ds i = if i = id then ds.length else 0 := by
  have hrep : ds.map Desc.owner = List.replicate ds.length (some id) := by
    rw [List.eq_replicate_iff]
    refine ⟨List.length_map _, ?_⟩
    rintro o ho
    obtain ⟨d, hd, rfl⟩ := List.mem_map.mp ho
    exact h d hd
  unfold countOf
  rw [hrep, List.count_replicate]
  by_cases hi : i = id
  · rw [hi]
    simp
  · rw [if_neg hi, if_neg]
    simp [Ne.symm hi]

/-- The next descriptors of one request join those handed over. -/
theorem Framed.append {reqs : List Request} {handed ds : List Desc} {id : ℕ} {req : Request}
    (h : Framed reqs handed) (hreq : reqs[id]? = some req) (hown : ∀ d ∈ ds, d.owner = some id)
    (hds : ∀ j (hj : j < ds.length), FramedAt req (countOf handed id + j) ds[j]) :
    Framed reqs (handed ++ ds) := by
  intro j hj
  rw [List.length_append] at hj
  rcases Nat.lt_or_ge j handed.length with hlt | hge
  · rw [List.getElem_append_left hlt, List.take_append_of_le_length hlt.le]
    exact h j hlt
  · have hjd : j - handed.length < ds.length := by omega
    rw [List.getElem_append_right hge]
    refine ⟨id, req, hown _ (List.getElem_mem hjd), hreq, ?_⟩
    have htake : (handed ++ ds).take j = handed ++ ds.take (j - handed.length) := by
      rw [List.take_append, List.take_of_length_le hge]
    have hown' : ∀ d ∈ ds.take (j - handed.length), d.owner = some id :=
      fun d hd => hown d (List.mem_of_mem_take hd)
    rw [htake, countOf_append, countOf_owned hown', if_pos rfl, List.length_take,
      Nat.min_eq_left hjd.le]
    exact hds _ hjd

/-- More requests do not matter. -/
theorem Framed.snoc {reqs : List Request} {handed : List Desc} (h : Framed reqs handed)
    (req : Request) : Framed (reqs ++ [req]) handed := by
  intro j hj
  obtain ⟨id, r, hown, hr, hf⟩ := h j hj
  refine ⟨id, r, hown, ?_, hf⟩
  rw [List.getElem?_append_left (List.getElem?_eq_some_iff.mp hr).1]
  exact hr

/-- No descriptor belongs to a request still to come. -/
theorem Framed.countOf_new {reqs : List Request} {handed : List Desc} (h : Framed reqs handed)
    {id : ℕ} (hid : reqs.length ≤ id) : countOf handed id = 0 := by
  unfold countOf
  apply List.count_eq_zero_of_not_mem
  rintro hin
  obtain ⟨d, hd, hown⟩ := List.mem_map.mp hin
  obtain ⟨j, hj, rfl⟩ := List.mem_iff_getElem.mp hd
  obtain ⟨id', r, hown', hr, _⟩ := h j hj
  have heq : id = id' := Option.some.inj (hown.symm.trans hown')
  have := (List.getElem?_eq_some_iff.mp hr).1
  omega

/-! ## The flags of a request's descriptors -/

/-- A request with entries, the last of which takes one descriptor. -/
def LastFits (req : Request) : Prop :=
  req.sgl ≠ [] ∧ ∀ sg ∈ req.sgl.getLast?, sg.len ≤ pageSize

/-- Every entry of an ST H2C request takes a descriptor. -/
theorem stPieces_ne_nil (sg : SwSg) (last : Bool) : entryPieces true sg last ≠ [] := by
  unfold entryPieces stPieces
  rw [if_pos rfl]
  split_ifs with h0
  · exact List.cons_ne_nil _ _
  · obtain ⟨n, hn⟩ : ∃ n, sg.len = n + 1 := ⟨sg.len - 1, by omega⟩
    rw [hn, cut, if_neg (Nat.succ_ne_zero n)]
    exact List.cons_ne_nil _ _

theorem sglPieces_ne_nil {sgl : List SwSg} (h : sgl ≠ []) : sglPieces true sgl ≠ [] := by
  cases sgl with
  | nil => exact absurd rfl h
  | cons sg sgl =>
      rw [sglPieces]
      exact List.append_ne_nil_of_left_ne_nil (stPieces_ne_nil sg _) _

/-- The pieces of an entry carry its mark. -/
theorem last_of_mem_stPieces {sg : SwSg} {last : Bool} {p : Piece}
    (h : p ∈ entryPieces true sg last) : p.last = last := by
  have hcut : ∀ fuel tlen addr, ∀ p ∈ cut pageSize last fuel tlen addr, p.last = last := by
    intro fuel
    induction fuel with
    | zero => simp [cut]
    | succ fuel ih =>
        intro tlen addr p hp
        rw [cut] at hp
        split_ifs at hp
        · cases hp
        · rcases List.mem_cons.mp hp with rfl | hp
          · rfl
          · exact ih _ _ p hp
  unfold entryPieces stPieces at h
  rw [if_pos rfl] at h
  split_ifs at h
  · rw [List.mem_singleton.mp h]
  · exact hcut _ _ _ p h

/-- An entry of at most a page takes one descriptor. -/
theorem length_stPieces_of_le {sg : SwSg} (last : Bool) (h : sg.len ≤ pageSize) :
    (entryPieces true sg last).length = 1 := by
  unfold entryPieces stPieces
  rw [if_pos rfl]
  split_ifs with h0
  · rfl
  · obtain ⟨n, hn⟩ : ∃ n, sg.len = n + 1 := ⟨sg.len - 1, by omega⟩
    rw [hn] at h ⊢
    rw [cut, if_neg (Nat.succ_ne_zero n), Nat.min_eq_left h, Nat.sub_self, cut_zero]
    rfl

/-- **The mark `last` is that of the last descriptor** when the last entry takes one. -/
theorem last_iff {sgl : List SwSg} (hne : sgl ≠ [])
    (hlast : ∀ sg ∈ sgl.getLast?, sg.len ≤ pageSize) (t : ℕ)
    (ht : t < (sglPieces true sgl).length) :
    (sglPieces true sgl)[t].last = true ↔ t + 1 = (sglPieces true sgl).length := by
  induction sgl generalizing t with
  | nil => exact absurd rfl hne
  | cons sg sgl ih =>
      simp only [sglPieces, List.length_append] at ht ⊢
      cases sgl with
      | nil =>
          have hlen := length_stPieces_of_le true (hlast sg rfl)
          simp only [sglPieces, List.append_nil, List.isEmpty_nil, List.length_nil] at ht ⊢
          have hm := last_of_mem_stPieces (List.getElem_mem (show t < _ by omega))
          exact iff_of_true hm (by omega)
      | cons sg' sgl =>
          have hpos := List.length_pos_iff.mpr (sglPieces_ne_nil (List.cons_ne_nil sg' sgl))
          have hlast' : ∀ s ∈ (sg' :: sgl).getLast?, s.len ≤ pageSize := by
            rwa [List.getLast?_cons_cons] at hlast
          rw [List.getElem_append]
          split_ifs with hcase
          · have hm := last_of_mem_stPieces (List.getElem_mem hcase)
            rw [hm]
            exact iff_of_false (by simp) (by omega)
          · rw [ih (List.cons_ne_nil _ _) hlast' _ (by omega)]
            constructor <;> intro h <;> omega

/-! ## The request being served -/

/-- The ring takes all that is left of the request, or it takes its first entries up to one
that is not empty, with bytes to go. -/
def StopsWell (cb : SgtReqCb) (a : ℕ) : Prop :=
  (leftDescs true cb).sum ≤ a ∨ ∃ m < (leftEntries cb).length,
    ((leftDescs true cb).take m).sum = a ∧
      (∀ sg ∈ ((leftEntries cb).take m).getLast?, 0 < sg.len) ∧
      0 < sglLen ((leftEntries cb).drop m)

/-- `cb` has posted its first `k` descriptors and goes on with the next one. -/
structure MidFrame (k : ℕ) (cb : SgtReqCb) : Prop where
  atEntry : AtEntry cb
  fits : LastFits cb.req
  pieces : leftPieces true cb = (sglPieces true cb.req.sgl).drop k
  begun : cb.offset = 0 ↔ k = 0

/-- There is something left to post. -/
theorem MidFrame.left_pos {k : ℕ} {cb : SgtReqCb} (h : MidFrame k cb) :
    0 < (leftPieces true cb).length := by
  apply List.length_pos_iff.mpr
  rcases h.atEntry.more with h0 | hlt
  · rw [h.pieces, h.begun.mp h0, List.drop_zero]
    exact sglPieces_ne_nil h.fits.1
  · have hsum := sglLen_leftEntries h.atEntry
    apply sglPieces_ne_nil
    intro hnil
    rw [hnil, sglLen_nil] at hsum
    omega

/-- What is left after some entries. -/
theorem drop_entries (st : Bool) (sgl : List SwSg) (m : ℕ) :
    (sglPieces st sgl).drop ((sgl.map (entryDescs st)).take m).sum
      = sglPieces st (sgl.drop m) := by
  induction sgl generalizing m with
  | nil => simp [sglPieces]
  | cons sg sgl ih =>
      cases m with
      | zero => simp
      | succ m =>
          rw [List.map_cons, List.take_succ_cons, List.sum_cons, sglPieces,
            ← length_entryPieces st sg sgl.isEmpty, ← List.drop_drop, List.drop_left, ih,
            List.drop_succ_cons]

/-- The entries a request goes on with once it has posted up to an entry that is not
empty. -/
theorem leftEntries_next {cb cb' : SgtReqCb} {m : ℕ} (h : AtEntry cb) (h' : AtEntry cb')
    (hreq : cb'.req = cb.req) (hm : m < (leftEntries cb).length)
    (hoff : cb'.offset = cb.offset + sglLen ((leftEntries cb).take m))
    (hlast : ∀ sg ∈ ((leftEntries cb).take m).getLast?, 0 < sg.len) (hpos : 0 < m) :
    leftEntries cb' = (leftEntries cb).drop m := by
  obtain ⟨i, hi, hilen, _⟩ := resumeAt_atEntry h
  obtain ⟨i', hi', hilen', _⟩ := resumeAt_atEntry h'
  have hleft : leftEntries cb = cb.req.sgl.drop i := by
    unfold leftEntries
    rw [hi]
  have hleft' : leftEntries cb' = cb.req.sgl.drop i' := by
    unfold leftEntries
    rw [hi', hreq]
  rw [hreq] at hilen'
  have htake : ∀ j, sglLen (cb.req.sgl.take (i + j))
      = cb.offset + sglLen ((leftEntries cb).take j) := by
    intro j
    rw [List.take_add, ← hleft, ← hilen]
    unfold sglLen
    rw [List.map_append, List.sum_append]
  -- the entry before the stop has bytes, so no earlier entry ends at the offset
  have hbefore : sglLen ((leftEntries cb).take (m - 1)) < sglLen ((leftEntries cb).take m) := by
    obtain ⟨m, rfl⟩ : ∃ n, m = n + 1 := ⟨m - 1, by omega⟩
    have hsplit := List.take_concat_get' (leftEntries cb) m (by omega)
    rw [← hsplit, List.getLast?_concat] at hlast
    have hlen := hlast _ rfl
    rw [Nat.add_sub_cancel, ← hsplit]
    unfold sglLen
    rw [List.map_append, List.sum_append, List.map_singleton, List.sum_singleton]
    omega
  have heq : i' = i + m := by
    rcases Nat.lt_trichotomy i' (i + m) with hlt | heq | hgt
    · have hle : sglLen (cb.req.sgl.take i') ≤ sglLen (cb.req.sgl.take (i + (m - 1))) := by
        have := sglLen_take_le (cb.req.sgl.take (i + (m - 1))) i'
        rwa [List.take_take, Nat.min_eq_left (by omega)] at this
      rw [htake, hilen', hoff] at hle
      omega
    · exact heq
    · have hcut := sglLen_take_lt_offset h' hi' hgt
      rw [hreq, htake, hoff] at hcut
      omega
  rw [hleft', hleft, List.drop_drop, heq]

/-- **Posting as far as the ring allows.**  Either all is posted, or the request stays with
its next descriptor. -/
theorem MidFrame.post {k a : ℕ} {cb : SgtReqCb} (h : MidFrame k cb) (hstop : StopsWell cb a)
    (ha : 0 < a) :
    ((leftPieces true cb).length ≤ a ∧
        cb.offset + bytes ((leftPieces true cb).take a) = cb.req.count) ∨
      (a < (leftPieces true cb).length ∧
        cb.offset + bytes ((leftPieces true cb).take a) < cb.req.count ∧
        ∀ n, MidFrame (k + a)
          { cb with
            descNr := n
            offset := cb.offset + bytes ((leftPieces true cb).take a) }) := by
  have hsum := sglLen_leftEntries h.atEntry
  have hlen := length_leftPieces true cb
  -- the ring has room for all, or stops the request between two entries
  rcases hstop with hall | ⟨m, hm, hma, hlast, hmore⟩
  · left
    rw [List.take_of_length_le (by omega)]
    refine ⟨by omega, ?_⟩
    unfold leftPieces
    rw [bytes_sglPieces, hsum]
  · right
    have hbytes : bytes ((leftPieces true cb).take a) = sglLen ((leftEntries cb).take m) := by
      have := bytes_take_entries true (leftEntries cb) m
      unfold leftDescs at hma
      rwa [hma] at this
    have hsplit := sglLen_take_add_drop (leftEntries cb) m
    have hdrop : (leftPieces true cb).drop a = sglPieces true ((leftEntries cb).drop m) := by
      have := drop_entries true (leftEntries cb) m
      unfold leftDescs at hma
      rwa [hma] at this
    have hm0 : 0 < m := by
      apply Nat.pos_of_ne_zero
      rintro rfl
      rw [List.take_zero, List.sum_nil] at hma
      omega
    have hshort : a < (leftPieces true cb).length := by
      -- some entry is left, and an entry has at least one descriptor
      have hne : (leftEntries cb).drop m ≠ [] := by
        intro hnil
        rw [hnil, sglLen_nil] at hmore
        omega
      have hpos := List.length_pos_iff.mpr (sglPieces_ne_nil hne)
      rw [← hdrop, List.length_drop] at hpos
      omega
    obtain ⟨i, hi, hilen, _⟩ := resumeAt_atEntry h.atEntry
    refine ⟨hshort, by omega, fun n => ?_⟩
    have hat : AtEntry { cb with
        descNr := n, offset := cb.offset + bytes ((leftPieces true cb).take a) } := by
      refine ⟨h.atEntry.total, ⟨i + m, ?_⟩, .inr ?_⟩
      · show cb.offset + _ = _
        have hleft : leftEntries cb = cb.req.sgl.drop i := by
          unfold leftEntries
          rw [hi]
        rw [hbytes, List.take_add, ← hleft, ← hilen]
        unfold sglLen
        rw [List.map_append, List.sum_append]
      · show cb.offset + _ < cb.req.count
        omega
    have hnext := leftEntries_next h.atEntry hat rfl hm
      (show cb.offset + _ = _ by rw [hbytes]) hlast hm0
    refine ⟨hat, h.fits, ?_, ?_⟩
    · show sglPieces true (leftEntries _) = (sglPieces true cb.req.sgl).drop (k + a)
      rw [hnext, ← hdrop, h.pieces, List.drop_drop]
    · show cb.offset + _ = 0 ↔ k + a = 0
      have hlen0 : 0 < sglLen ((leftEntries cb).take m) := by
        obtain ⟨m, rfl⟩ : ∃ n, m = n + 1 := ⟨m - 1, by omega⟩
        have htake := List.take_concat_get' (leftEntries cb) m (by omega)
        rw [← htake, List.getLast?_concat] at hlast
        have := hlast _ rfl
        rw [← htake]
        unfold sglLen
        rw [List.map_append, List.sum_append, List.map_singleton, List.sum_singleton]
        omega
      exact iff_of_false (by omega) (by omega)

/-! ## A worker pass -/

/-- What a slot held before adds nothing to the flags wanted. -/
def StaleOk (old : ℕ) (sop eop : Bool) : Prop :=
  (old.testBit 0 = true → sop = true) ∧ (old.testBit 1 = true → eop = true)

instance (old : ℕ) (sop eop : Bool) : Decidable (StaleOk old sop eop) :=
  inferInstanceAs (Decidable (_ ∧ _))

/-- Whether the slots from `p` on, `a` of them free, may take what is left of the requests
`cbs`: the ring runs out at a good place only, and no slot keeps an old flag that its new
descriptor is not to have. -/
def PassFramed (n : ℕ) (slot : ℕ → Desc) : List SgtReqCb → ℕ → ℕ → Prop
  | [], _, _ => True
  | cb :: cbs, p, a => a = 0 ∨
      StopsWell cb a ∧
        (∀ j (h : j < ((leftPieces true cb).take a).length),
          StaleOk (slot (adv n p j)).h2c.flags (decide (j = 0 ∧ cb.offset = 0))
            ((leftPieces true cb).take a)[j].last) ∧
        PassFramed n slot cbs (adv n p (leftPieces true cb).length)
          (a - (leftPieces true cb).length)

/-- Only the free slots matter. -/
theorem PassFramed.congr {n : ℕ} {slot slot' : ℕ → Desc} {cbs : List SgtReqCb} {p a : ℕ}
    (h : PassFramed n slot cbs p a) (hs : ∀ j < a, slot' (adv n p j) = slot (adv n p j)) :
    PassFramed n slot' cbs p a := by
  induction cbs generalizing p a with
  | nil => trivial
  | cons cb cbs ih =>
      rcases h with h0 | ⟨hstop, hstale, hrest⟩
      · exact .inl h0
      · refine .inr ⟨hstop, ?_, ?_⟩
        · intro j hj
          rw [hs j (by rw [List.length_take] at hj; omega)]
          exact hstale j hj
        · apply ih hrest
          intro j hj
          rw [adv_adv]
          exact hs _ (by omega)

/-- The flag word a clean slot ends up with. -/
theorem framedAt_posted {req : Request} {k old : ℕ} {sop eop : Bool} {d : Desc}
    (hd : d.h2c.flags = postedFlags sop eop old) (hold : StaleOk old sop eop)
    (hsop : sop = true ↔ k = 0) (heop : eop = true ↔ k + 1 = req.descTotal) :
    FramedAt req k d := by
  have hb0 : Nat.testBit 2 0 = false ∧ Nat.testBit 1 0 = true := by decide
  have hb1 : Nat.testBit 2 1 = true ∧ Nat.testBit 1 1 = false := by decide
  have h0 : (postedFlags sop eop old).testBit 0 = (old.testBit 0 || sop) := by
    unfold postedFlags sH2cDescFSop sH2cDescFEop
    cases sop <;> cases eop <;> simp only [Nat.testBit_or, hb0, reduceIte, Nat.zero_testBit,
      Bool.or_false, Bool.or_true, Bool.false_eq_true]
  have h1 : (postedFlags sop eop old).testBit 1 = (old.testBit 1 || eop) := by
    unfold postedFlags sH2cDescFSop sH2cDescFEop
    cases sop <;> cases eop <;> simp only [Nat.testBit_or, hb1, reduceIte, Nat.zero_testBit,
      Bool.or_false, Bool.or_true, Bool.false_eq_true]
  constructor
  · rw [hd, h0, ← hsop, Bool.or_eq_true]
    exact ⟨fun h => h.elim hold.1 id, .inr⟩
  · rw [hd, h1, ← heop, Bool.or_eq_true]
    exact ⟨fun h => h.elim hold.2 id, .inr⟩

/-- The framing law of a queue, `reqs` being the requests submitted. -/
structure FrameInv (reqs : List Request) (q : Descq) : Prop where
  ring : RingInv q
  st : q.conf.st = true
  nodup : (q.reqs.map SgtReqCb.id).Nodup
  mid : ∀ cb ∈ q.workList,
    reqs[cb.id]? = some cb.req ∧ MidFrame (countOf q.regs.handed cb.id) cb
  known : ∀ cb ∈ q.reqs, cb.id < reqs.length
  framed : Framed reqs q.regs.handed

/-- The descriptors posted for a request are framed if their slots are clean. -/
theorem MidFrame.framedAt {q d' : Descq} {cb : SgtReqCb} {ps : List Piece} {k a : ℕ}
    (h : MidFrame k cb) (hst : q.conf.st = true) (hps : ps = (leftPieces true cb).take a)
    (hp : Posted q d' cb ps)
    (hstale : ∀ j (hj : j < ps.length),
      StaleOk (q.desc.slot (adv q.conf.rngsz q.pidx j)).h2c.flags
        (decide (j = 0 ∧ cb.offset = 0)) ps[j].last)
    (j : ℕ) (hj : j < ps.length) :
    FramedAt cb.req (k + j) (d'.desc.slot (adv q.conf.rngsz q.pidx j)) := by
  apply framedAt_posted (hp.flags hst j hj) (hstale j hj)
  · rw [decide_eq_true_eq, h.begun]
    constructor
    · rintro ⟨rfl, rfl⟩
      rfl
    · intro hz
      exact ⟨by omega, by omega⟩
  · have hlen : k + j < (sglPieces true cb.req.sgl).length := by
      rw [hps, List.length_take, h.pieces, List.length_drop] at hj
      omega
    have hget : ps[j] = (sglPieces true cb.req.sgl)[k + j] := by
      subst hps
      rw [List.getElem_take]
      simp only [h.pieces, List.getElem_drop]
    rw [hget]
    exact last_iff h.fits.1 h.fits.2 _ hlen

/-- What handing over `n` descriptors of the request `cb` does to the framing. -/
theorem FrameInv.handed {reqs : List Request} {q q' : Descq} {cb : SgtReqCb} {n : ℕ}
    (h : FrameInv reqs q) (hcb : cb ∈ q.workList) (he : Extends q q' n)
    (hown : ∀ j < n, (q'.desc.slot (adv q.conf.rngsz q.pidx j)).owner = some cb.id)
    (hfr : ∀ j < n, FramedAt cb.req (countOf q.regs.handed cb.id + j)
      (q'.desc.slot (adv q.conf.rngsz q.pidx j))) :
    Framed reqs q'.regs.handed ∧
      ∀ i, countOf q'.regs.handed i
        = countOf q.regs.handed i + if i = cb.id then n else 0 := by
  have havail := h.ring.avail
  have h1 := h.ring.one_le
  have hn := he.avail
  have hlen : (stretch q.conf.rngsz q'.desc.slot q.pidx q'.pidx).length = n := by
    rw [length_stretch, he.pidx, dist_adv h.ring.pidx_lt (by omega)]
  have howned : ∀ d ∈ stretch q.conf.rngsz q'.desc.slot q.pidx q'.pidx,
      d.owner = some cb.id := by
    rintro d hd
    obtain ⟨j, hj, rfl⟩ := List.mem_iff_getElem.mp hd
    rw [getElem_stretch]
    exact hown j (by omega)
  rw [he.handed]
  constructor
  · apply h.framed.append (h.mid cb hcb).1 howned
    intro j hj
    rw [getElem_stretch]
    exact hfr j (by omega)
  · intro i
    rw [countOf_append, countOf_owned howned, hlen]

/-- **Serving the head of `work_list`** keeps the framing, if the pass may go on so. -/
theorem FrameInv.serve {reqs : List Request} {q : Descq} {cb : SgtReqCb}
    {rest : List SgtReqCb} (h : FrameInv reqs q) (hw : q.workList = cb :: rest)
    (hpos : 0 < q.avail)
    (hok : PassFramed q.conf.rngsz q.desc.slot (cb :: rest) q.pidx q.avail) :
    FrameInv reqs (wrkProcOne q cb) ∧ ((wrkProcOne q cb).avail = 0 ∨
      (wrkProcOne q cb).workList = rest ∧
        PassFramed (wrkProcOne q cb).conf.rngsz (wrkProcOne q cb).desc.slot rest
          (wrkProcOne q cb).pidx (wrkProcOne q cb).avail) := by
  have hmem : cb ∈ q.workList := hw ▸ List.mem_cons_self ..
  have hsub : ∀ c ∈ rest, c ∈ q.workList := fun c hc => hw ▸ List.mem_cons_of_mem _ hc
  obtain ⟨hreq, hmid⟩ := h.mid cb hmem
  have hnd := h.nodup
  unfold Descq.reqs at hnd
  rw [hw] at hnd
  -- no other request on `work_list` has the identity of the head
  have hother : ∀ c ∈ rest, c.id ≠ cb.id := by
    intro c hc heq
    exact (nodup_work_head hnd).2 (heq ▸ List.mem_map_of_mem hc)
  obtain h0 | ⟨hstop, hstale, hrest⟩ := hok
  · omega
  have hlt := cb.req.count_lt
  have havail := h.ring.avail
  have h1 := h.ring.one_le
  obtain ⟨i, hi, _, _⟩ := resumeAt_atEntry hmid.atEntry
  have hleft : leftEntries cb = cb.req.sgl.drop i := by
    unfold leftEntries
    rw [hi]
  have hout := procSgtRequest_outcome cb h.ring.kind h.ring.pidx_lt (by omega) h.ring.rung
  unfold wrkProcOne
  generalize qdmaDescqProcSgtRequest q cb = r at hout
  cases hout with
  | full hz => omega
  | failed _ _ why =>
      rcases why with hnone | ⟨hmm, _⟩
      · rw [hi] at hnone
        cases hnone
      · rw [h.st] at hmm
        cases hmm
  | @posted j off d' ps _ hj hps hp =>
      rw [if_neg (show ¬ (0 : ℤ) < 0 by decide)]
      obtain ⟨rfl, rfl⟩ := Prod.mk.inj (Option.some.inj (hi.symm.trans hj))
      rw [← hleft, h.st] at hps
      change ps = (leftPieces true cb).take q.avail at hps
      have hlen : ps.length = min q.avail (leftPieces true cb).length := by
        rw [hps, List.length_take]
      have hsome := hmid.left_pos
      have hframed := hmid.framedAt h.st hps hp (by rw [hps]; exact hstale)
      have hpost := hmid.post hstop hpos
      rw [← hps] at hpost
      rw [hp.charge_head hw h.nodup]
      rcases hpost with ⟨hall, hdone⟩ | ⟨hshort, hmore, hnext⟩
      · have hoff : (cb.charge ps.length (bytes ps)).offset = cb.req.count := by
          show u32 (cb.offset + bytes ps) = _
          rw [hdone, u32_of_lt hlt]
        rw [if_pos hoff]
        obtain ⟨he, _, _⟩ := hp.serves h.ring (by omega) rest
          (q.pendList ++ [cb.charge ps.length (bytes ps)]) q.finished
        obtain ⟨hfr, hcount⟩ := h.handed hmem he hp.owner hframed
        refine ⟨⟨h.ring.extends he, ?_, ?_, ?_, ?_, hfr⟩, .inr ⟨rfl, ?_⟩⟩
        · rw [he.conf, h.st]
        · show ((q.pendList ++ [_] ++ rest).map SgtReqCb.id).Nodup
          rw [List.append_assoc, List.singleton_append, List.map_append, List.map_cons]
          rwa [List.map_append, List.map_cons] at hnd
        · intro c hc
          rw [hcount, if_neg (hother c hc), Nat.add_zero]
          exact h.mid c (hsub c hc)
        · intro c hc
          rcases List.mem_append.mp hc with hc | hc
          · rcases List.mem_append.mp hc with hc | hc
            · exact h.known c (List.mem_append_left _ hc)
            · rw [List.mem_singleton.mp hc]
              exact h.known cb (List.mem_append_right _ hmem)
          · exact h.known c (List.mem_append_right _ (hsub c hc))
        · have hleft' : (leftPieces true cb).length = ps.length := by omega
          have ha : d'.avail - ps.length = q.avail - ps.length := Nat.eq_sub_of_add_eq he.avail
          rw [hleft'] at hrest
          rw [he.conf, he.pidx]
          show PassFramed _ _ rest _ (d'.avail - ps.length)
          rw [ha]
          apply hrest.congr
          intro j hj
          rw [adv_adv]
          exact hp.old _ (by omega) (by omega) (by omega)
      · have hoff : (cb.charge ps.length (bytes ps)).offset = cb.offset + bytes ps :=
          u32_of_lt (by omega)
        have hfull : ps.length = q.avail := by omega
        rw [if_neg (by rw [hoff]; omega)]
        obtain ⟨he, _, _⟩ := hp.serves h.ring (by omega)
          (cb.charge ps.length (bytes ps) :: rest) q.pendList q.finished
        obtain ⟨hfr, hcount⟩ := h.handed hmem he hp.owner hframed
        refine ⟨⟨h.ring.extends he, ?_, ?_, ?_, ?_, hfr⟩, .inl ?_⟩
        · rw [he.conf, h.st]
        · show ((q.pendList ++ _ :: rest).map SgtReqCb.id).Nodup
          rw [List.map_append, List.map_cons]
          rwa [List.map_append, List.map_cons] at hnd
        · intro c hc
          rcases List.mem_cons.mp hc with rfl | hc
          · rw [hcount]
            show reqs[cb.id]? = some cb.req ∧
              MidFrame (_ + if cb.id = cb.id then ps.length else 0) _
            rw [if_pos rfl, hfull]
            rw [hfull] at hoff
            refine ⟨hreq, ?_⟩
            have hm := hnext (u32 (cb.descNr + q.avail))
            rw [← hoff] at hm
            exact hm
          · rw [hcount, if_neg (hother c hc), Nat.add_zero]
            exact h.mid c (hsub c hc)
        · intro c hc
          rcases List.mem_append.mp hc with hc | hc
          · exact h.known c (List.mem_append_left _ hc)
          · rcases List.mem_cons.mp hc with rfl | hc
            · exact h.known cb (List.mem_append_right _ hmem)
            · exact h.known c (List.mem_append_right _ (hsub c hc))
        · have ha : d'.avail - ps.length + ps.length = q.avail := he.avail
          show d'.avail - ps.length = 0
          omega

/-- **A worker pass keeps the framing.** -/
theorem FrameInv.pass {reqs : List Request} {q : Descq} (h : FrameInv reqs q)
    (hok : PassFramed q.conf.rngsz q.desc.slot q.workList q.pidx q.avail) :
    FrameInv reqs (qdmaThreadWrkProc q) := by
  unfold qdmaThreadWrkProc
  generalize hw : q.workList = cbs
  rw [hw] at hok
  induction cbs generalizing q with
  | nil => exact h
  | cons cb cbs ih =>
      rw [wrkProcLoop_cons]
      by_cases h0 : q.avail = 0
      · rw [wrkProcOne_full h.ring h0, if_pos h0]
        exact h
      · obtain ⟨hinv, hnext⟩ := h.serve hw (by omega) hok
        rcases hnext with hz | ⟨hw', hok'⟩
        · rw [if_pos hz]
          exact hinv
        · split_ifs
          · exact hinv
          · exact ih hinv hok' hw'

/-! ## The other steps -/

/-- What leaves the ring alone and brings no request to `work_list` keeps the framing. -/
theorem FrameInv.fewer {reqs : List Request} {q q' : Descq} (h : FrameInv reqs q)
    (hring : RingInv q') (hconf : q'.conf = q.conf) (hregs : q'.regs.handed = q.regs.handed)
    (hwork : ∀ cb ∈ q'.workList, cb ∈ q.workList)
    (hids : (q'.reqs.map SgtReqCb.id).Sublist (q.reqs.map SgtReqCb.id)) :
    FrameInv reqs q' := by
  refine ⟨hring, by rw [hconf, h.st], h.nodup.sublist hids, ?_, ?_, by rw [hregs]; exact h.framed⟩
  · intro cb hcb
    rw [hregs]
    exact h.mid cb (hwork cb hcb)
  · intro cb hcb
    obtain ⟨c, hc, heq⟩ := List.mem_map.mp (hids.subset (List.mem_map_of_mem hcb))
    rw [← heq]
    exact h.known c hc

/-- `req_update_pend` settles requests of `pend_list` only. -/
theorem reqUpdatePend_ids {d : Descq} (credit : ℕ) (hnd : (d.reqs.map SgtReqCb.id).Nodup) :
    (reqUpdatePend d credit).workList = d.workList ∧
      ((reqUpdatePend d credit).reqs.map SgtReqCb.id).Sublist (d.reqs.map SgtReqCb.id) := by
  unfold reqUpdatePend
  rw [reqUpdatePendLoop_eq _ rfl hnd]
  refine ⟨rfl, ?_⟩
  obtain ⟨tail, hpend, hrest⟩ :=
    settle_spec SgtReqCb.descNr SgtReqCb.pay d.pendList (u32 (credit + d.credit))
  have hids : (settleCbs d.pendList (u32 (credit + d.credit))).2.1.map SgtReqCb.id
      = tail.map SgtReqCb.id := by
    unfold settleCbs
    rcases hrest with ⟨h1, _⟩ | ⟨a, t, k, rfl, _, h3⟩
    · rw [h1]
    · rw [h3]
      rfl
  unfold Descq.reqs
  show (((settleCbs d.pendList _).2.1 ++ d.workList).map SgtReqCb.id).Sublist _
  rw [List.map_append, hids, ← List.map_append]
  apply List.Sublist.map
  apply List.Sublist.append_right
  conv_rhs => rw [hpend]
  exact List.sublist_append_right _ _

/-- **A writeback keeps the framing.** -/
theorem FrameInv.wb {reqs : List Request} {q : Descq} (h : FrameInv reqs q) :
    FrameInv reqs (descqMmNH2cWb q) := by
  rcases descqMmNH2cWb_cases h.ring with ⟨_, heq⟩ | ⟨_, heq⟩
  · rwa [heq]
  · have hsame := sameRing_reqUpdatePend q.caughtUp q.reported
    obtain ⟨hwork, hids⟩ := reqUpdatePend_ids (d := q.caughtUp) q.reported h.nodup
    rw [heq]
    apply h.fewer (h.ring.caughtUp.congr hsame) hsame.conf
    · rw [hsame.regs]
      rfl
    · rw [hwork]
      exact fun _ hc => hc
    · exact hids

/-- **A wait keeps the framing.** -/
theorem FrameInv.wait {reqs : List Request} {q : Descq} (h : FrameInv reqs q) (id : ℕ) :
    FrameInv reqs (qdmaRequestWaitForCmpl q id).1 := by
  have hsame := sameRing_wait q id
  apply h.fewer (h.ring.congr hsame) hsame.conf
  · rw [hsame.regs]
  · unfold qdmaRequestWaitForCmpl
    split
    · exact fun cb hcb => List.mem_of_mem_filter hcb
    · exact fun _ hc => hc
  · unfold qdmaRequestWaitForCmpl
    split
    · apply List.Sublist.map
      unfold Descq.reqs Descq.listDel
      exact List.filter_sublist.append List.filter_sublist
    · exact List.Sublist.refl _

/-- A request joins `work_list`. -/
theorem FrameInv.enqueue {reqs : List Request} {q : Descq} (h : FrameInv reqs q) (req : Request)
    (htotal : sglLen req.sgl = req.count) (hfits : LastFits req) :
    FrameInv (reqs ++ [req]) (q.enqueue (req.newCb reqs.length)) := by
  have hmore : ∀ {id : ℕ} {r : Request}, reqs[id]? = some r → (reqs ++ [req])[id]? = some r := by
    intro id r hr
    rwa [List.getElem?_append_left (List.getElem?_eq_some_iff.mp hr).1]
  refine ⟨h.ring.congr ⟨rfl, rfl, rfl, rfl, rfl, rfl⟩, h.st, ?_, ?_, ?_, h.framed.snoc req⟩
  · rw [enqueue_reqs, List.map_append, List.nodup_append]
    refine ⟨h.nodup, List.nodup_singleton _, ?_⟩
    rintro a ha b hb rfl
    obtain ⟨cb, hcb, hid⟩ := List.mem_map.mp ha
    have hb' : a = reqs.length := List.mem_singleton.mp hb
    have := h.known cb hcb
    omega
  · intro cb hcb
    rcases List.mem_append.mp hcb with hcb | hcb
    · exact ⟨hmore (h.mid cb hcb).1, (h.mid cb hcb).2⟩
    · obtain rfl := List.mem_singleton.mp hcb
      refine ⟨List.getElem?_concat_length, ?_⟩
      -- nothing of a new request is posted yet
      show MidFrame (countOf q.regs.handed reqs.length) _
      rw [h.framed.countOf_new le_rfl]
      exact ⟨⟨htotal, ⟨0, rfl⟩, .inl rfl⟩, hfits, rfl, Iff.rfl⟩
  · intro cb hcb
    rw [enqueue_reqs] at hcb
    rw [List.length_append, List.length_singleton]
    rcases List.mem_append.mp hcb with hcb | hcb
    · have := h.known cb hcb
      omega
    · rw [List.mem_singleton.mp hcb]
      exact Nat.lt_succ_self _

/-- A refused request is only counted. -/
theorem FrameInv.snoc {reqs : List Request} {q : Descq} (h : FrameInv reqs q) (req : Request) :
    FrameInv (reqs ++ [req]) q := by
  refine ⟨h.ring, h.st, h.nodup, ?_, ?_, h.framed.snoc req⟩
  · intro cb hcb
    obtain ⟨hr, hm⟩ := h.mid cb hcb
    rw [List.getElem?_append_left (List.getElem?_eq_some_iff.mp hr).1]
    exact ⟨hr, hm⟩
  · intro cb hcb
    have := h.known cb hcb
    rw [List.length_append]
    omega

/-! ## Whole runs -/

instance (cb : SgtReqCb) (a : ℕ) : Decidable (StopsWell cb a) :=
  inferInstanceAs (Decidable (_ ∨ _))

instance (req : Request) : Decidable (LastFits req) := inferInstanceAs (Decidable (_ ∧ _))

instance instDecidablePassFramed (n : ℕ) (slot : ℕ → Desc) :
    ∀ (cbs : List SgtReqCb) (p a : ℕ), Decidable (PassFramed n slot cbs p a)
  | [], _, _ => isTrue trivial
  | cb :: cbs, p, a =>
      have := instDecidablePassFramed n slot cbs (adv n p (leftPieces true cb).length)
        (a - (leftPieces true cb).length)
      inferInstanceAs (Decidable (_ ∨ _ ∧ _ ∧ _))

/-- The checks of `qdma_request_submit`: the direction is that of the queue, the entries are mapped
and the queue is online. -/
def Descq.Enlists (d : Descq) (req : Request) (mapped : Bool) : Prop :=
  req.write ≠ d.conf.c2h ∧ (req.dmaMapped = true ∨ mapped = true) ∧ d.online = true

instance (d : Descq) (req : Request) (mapped : Bool) : Decidable (d.Enlists req mapped) :=
  inferInstanceAs (Decidable (_ ∧ _ ∧ _))

/-- A request that does not pass them is refused. -/
theorem requestSubmit_refused {d : Descq} {req : Request} {mapped : Bool}
    (h : ¬ d.Enlists req mapped) (id : ℕ) :
    ∃ rv, qdmaRequestSubmit d id req mapped = (d, some rv) := by
  unfold qdmaRequestSubmit
  split_ifs with hdir hmap hon
  · exact ⟨_, rfl⟩
  · exact ⟨_, rfl⟩
  · exact ⟨_, rfl⟩
  · refine absurd ⟨hdir, ?_, by simpa using hon⟩ h
    by_contra hno
    rw [not_or, Bool.not_eq_true, Bool.not_eq_true] at hno
    exact hmap (by rw [hno.1, hno.2]; rfl)

/-- The steps that keep the framing: a request that is taken has entries that add up to its count
and its last entry takes one descriptor; a pass uses up the ring at a good place only and leaves no
old flag in a slot. -/
def FrameOk (s : Sys) : Label → Prop
  | .submit req mapped => s.q.Enlists req mapped → sglLen req.sgl = req.count ∧ LastFits req
  | .worker => PassFramed s.q.conf.rngsz s.q.desc.slot s.q.workList s.q.pidx s.q.avail
  | _ => True

instance (s : Sys) (l : Label) : Decidable (FrameOk s l) :=
  match l with
  | .submit _ _ => inferInstanceAs (Decidable (_ → _ ∧ _))
  | .worker => inferInstanceAs (Decidable (PassFramed _ _ _ _ _))
  | .hw _ | .wb | .wait _ => inferInstanceAs (Decidable True)

/-- The framing law of the system. -/
structure FrameSys (s : Sys) : Prop where
  inv : FrameInv s.submitted s.q
  ids : s.submitted.length = s.nreq

/-- **Every step that is `FrameOk` keeps the framing.** -/
theorem frameSys_step (s : Sys) (l : Label) (h : FrameSys s) (hok : Legal s l ∧ FrameOk s l) :
    FrameSys (s.step l) := by
  obtain ⟨hlegal, hok⟩ := hok
  cases l with
  | submit req mapped =>
      have hlen : (s.submitted ++ [req]).length = s.nreq + 1 := by
        rw [List.length_append, h.ids]
        rfl
      by_cases hin : s.q.Enlists req mapped
      · rcases submit_cases s req mapped with ⟨rv, heq⟩ | ⟨w, r, heq, _⟩
        · rw [Sys.step, heq]
          exact ⟨h.inv.snoc req, hlen⟩
        · rw [Sys.step, heq]
          refine ⟨?_, hlen⟩
          have henq := h.inv.enqueue req (hok hin).1 (hok hin).2
          rwa [h.ids] at henq
      · obtain ⟨rv, heq⟩ := requestSubmit_refused hin s.nreq
        rw [Sys.step, Sys.submit]
        simp only [heq]
        exact ⟨h.inv.snoc req, hlen⟩
  | worker => exact ⟨h.inv.pass hok, h.ids⟩
  | hw c =>
      refine ⟨?_, h.ids⟩
      exact h.inv.fewer (h.inv.ring.hw hlegal) rfl rfl (fun _ hc => hc) (List.Sublist.refl _)
  | wb => exact ⟨h.inv.wb, h.ids⟩
  | wait id => exact ⟨h.inv.wait id, h.ids⟩

/-- A queue just started has handed over nothing. -/
theorem Started.frameSys {q : Descq} (h : Started q) (hst : q.conf.st = true) :
    FrameSys { q := q } := by
  obtain ⟨hring, hw, hp, _, _, hh, _, _⟩ := h.spec
  have hreqs : q.reqs = [] := by
    unfold Descq.reqs
    rw [hw, hp]
    rfl
  refine ⟨⟨hring, hst, by rw [hreqs]; exact List.nodup_nil, ?_, ?_, ?_⟩, rfl⟩
  · rw [hw]
    exact fun _ hcb => absurd hcb List.not_mem_nil
  · rw [hreqs]
    exact fun _ hcb => absurd hcb List.not_mem_nil
  · rw [hh]
    rintro j hj
    cases hj

/-- **Packet framing.**  In a run of an ST H2C queue whose steps are all `FrameOk`, every
descriptor handed to the device carries SOP exactly if it is the first of its request and
EOP exactly if it is the last. -/
theorem packet_framing {q : Descq} (h : Started q) (hst : q.conf.st = true) {evs : List Label}
    {s : Sys} (hrun : Run Sys.step (fun s l => Legal s l ∧ FrameOk s l) { q := q } evs s) :
    Framed s.submitted s.q.regs.handed :=
  (hrun.invariant (h.frameSys hst) frameSys_step).inv.framed

/-- A write of two entries. -/
def pairReq : Request where
  write := true
  count := 16
  epAddr := 0
  dmaMapped := true
  fpDone := false
  sgl := [⟨1, 0, 8, 4096⟩, ⟨2, 0, 8, 8192⟩]

/-- Two writes of two descriptors each, the second partly over a slot used before. -/
theorem packet_framing_pairs :
    let s := [Label.submit pairReq true, .worker, .hw 2, .wb, .submit (writeReq 8) true, .worker,
      .hw 0, .wb].foldl Sys.step (startedSys true 4)
    s.q.regs.handed.length = 3 ∧ Framed s.submitted s.q.regs.handed := by
  intro s
  refine ⟨by decide +kernel, ?_⟩
  exact packet_framing (started_startedSys true) rfl
    (Run.under (fun s l => Legal s l ∧ FrameOk s l) _ (by decide +kernel))

/-- **A stale flag.**  Three writes of one descriptor each leave both flags in the three
slots of the ring; the first descriptor of the next write, which takes two, then carries
EOP. -/
theorem stale_eop_flag :
    ∃ q evs s, Started q ∧ q.conf.st = true ∧ Run Sys.step Legal { q := q } evs s ∧
      ¬ Framed s.submitted s.q.regs.handed := by
  refine ⟨_, [Label.submit (writeReq 8) true, .submit (writeReq 8) true, .worker, .hw 2, .wb,
    .submit (writeReq 8) true, .worker, .hw 0, .wb, .submit pairReq true, .worker], _,
    started_startedSys true, rfl, Run.of_admits _ (by decide +kernel), ?_⟩
  intro h
  obtain ⟨id, req, hown, hreq, hf⟩ := h 3 (by decide +kernel)
  obtain rfl : 3 = id := Option.some.inj (Eq.trans (by decide +kernel) hown)
  have htotal := congrArg (Option.map Request.descTotal) hreq
  have htwo : some 2 = some req.descTotal := Eq.trans (by decide +kernel) htotal
  have heop := hf.eop.mp (by decide +kernel)
  rw [← Option.some.inj htwo] at heop
  exact absurd heop (by decide +kernel)

end Qdma
