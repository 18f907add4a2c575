/-
# Reading out of receive buffers

What one `descq_st_c2h_read` copies.  `copyOut_spec` is about one buffer: bytes move in
order until the buffer or the scatter-gather list is used up.  `readLoop_spec` is about
all unread buffers: some are read to their end, the next one partway at most.
-/
import Qdma.StC2h

namespace Qdma

open RingIndex

/-! ## Copying out of one buffer -/

/-- A buffer of the free list with its state bits. -/
abbrev RxBuf := FlSdesc × SdescInfo

/-- The buffer at `i`. -/
def Descq.bufAt (d : Descq) (i : ℕ) : RxBuf := (d.flq.sdesc i, d.flq.sdescInfo i)

theorem pageBytes_append (page : ℕ → UInt8) (off m n : ℕ) :
    pageBytes page off m ++ pageBytes page (off + m) n = pageBytes page off (m + n) := by
  unfold pageBytes
  rw [List.range_add, List.map_append, List.map_map]
  congr 1
  exact List.map_congr_left (fun k _ => by rw [Function.comp, Nat.add_assoc])

@[simp] theorem length_pageBytes (page : ℕ → UInt8) (off n : ℕ) :
    (pageBytes page off n).length = n := by
  simp [pageBytes]

theorem take_pageBytes (page : ℕ → UInt8) (off : ℕ) {m n : ℕ} (h : m ≤ n) :
    (pageBytes page off n).take m = pageBytes page off m := by
  rw [← Nat.add_sub_cancel' h, ← pageBytes_append, List.take_left' (length_pageBytes ..)]

/-- The bytes of some copies, in order. -/
def copyBytes (log : List Copy) : List UInt8 := log.flatMap Copy.bytes

@[simp] theorem copyBytes_nil : copyBytes [] = [] := rfl

@[simp] theorem copyBytes_append (l l' : List Copy) :
    copyBytes (l ++ l') = copyBytes l ++ copyBytes l' := List.flatMap_append

@[simp] theorem copyBytes_cons (c : Copy) (l : List Copy) :
    copyBytes (c :: l) = c.bytes ++ copyBytes l := rfl

/-- The room left in the entries `tsg`, the first of them filled up to `off`. -/
def sglRoom (tsg : List SwSg) (off : ℕ) : ℕ := (tsg.map SwSg.len).sum - off

/-- The cursor of a read: `j` entries of `sgl` are full, the next one up to `off`. -/
structure Cursor (sgl tsg : List SwSg) (off j : ℕ) : Prop where
  tsg_eq : tsg = sgl.drop j
  fits : ∀ t ∈ tsg.head?, off ≤ t.len
  nil : tsg = [] → off = 0

/-- The state of a read after `m` more bytes out of one buffer. -/
def Rd.copyTo (r : Rd) (m : ℕ) (log : List Copy) (tsg : List SwSg) (tsgoff j : ℕ) : Rd :=
  { r with
    d := { r.d with copied := r.d.copied ++ log }
    tsg := tsg, tsgoff := tsgoff, j := j
    foff := r.foff + m
    copied := r.copied + m }

/-- **Copying out of one buffer** moves bytes in order until the buffer or the list is
used up. -/
theorem copyOut_spec (page : ℕ → UInt8) (l : List SwSg) (flen : ℕ) (r : Rd)
    (hl : r.tsg = l) :
    ∃ m log tsg tsgoff j, m ≤ flen ∧
      copyOut page l flen r = r.copyTo m log tsg tsgoff j ∧
      copyBytes log = pageBytes page r.foff m ∧
      ∀ sgl, Cursor sgl l r.tsgoff r.j → Cursor sgl tsg tsgoff j ∧
        (m = flen ∨ tsg = []) ∧ m + sglRoom tsg tsgoff = sglRoom l r.tsgoff := by
  induction l generalizing flen r with
  | nil =>
      refine ⟨0, [], [], r.tsgoff, r.j, Nat.zero_le _, ?_, rfl, fun sgl h => ?_⟩
      · rw [copyOut, Rd.copyTo, List.append_nil, ← hl]
        rfl
      · exact ⟨h, .inr rfl, Nat.zero_add _⟩
  | cons t rest ih =>
      set c := min flen (t.len - r.tsgoff) with hc
      by_cases h0 : flen = 0
      · refine ⟨0, [], t :: rest, r.tsgoff, r.j, Nat.zero_le _, ?_, rfl, fun sgl h => ?_⟩
        · rw [copyOut, if_pos h0, Rd.copyTo, List.append_nil, ← hl]
          rfl
        · exact ⟨h, .inl h0.symm, Nat.zero_add _⟩
      · have hstep : copyOut page (t :: rest) flen r
            = if r.tsgoff + c = t.len then
                copyOut page rest (flen - c) ((r.memcpy page t c).nextEntry rest)
              else r.memcpy page t c := by
          rw [copyOut, if_neg h0]
          rfl
        by_cases h1 : r.tsgoff + c = t.len
        · -- the entry is full: the next one takes over
          obtain ⟨m, log, tsg, tsgoff, j, hm, heq, hlog, hcur⟩ :=
            ih (flen - c) ((r.memcpy page t c).nextEntry rest) rfl
          refine ⟨c + m, r.copyOf page t c :: log, tsg, tsgoff, j, by omega, ?_, ?_,
            fun sgl h => ?_⟩
          · rw [hstep, if_pos h1, heq]
            unfold Rd.copyTo Rd.nextEntry Rd.memcpy
            simp only [List.append_assoc, List.singleton_append, Nat.add_assoc]
          · rw [copyBytes_cons, hlog]
            exact pageBytes_append page r.foff c m
          · have hdrop : rest = sgl.drop (r.j + 1) := by
              rw [← List.drop_drop, ← h.tsg_eq, List.drop_one, List.tail_cons]
            obtain ⟨hcur', hm', hroom⟩ := hcur sgl
              ⟨hdrop, fun t _ => Nat.zero_le _, fun _ => rfl⟩
            refine ⟨hcur', hm'.imp_left (by omega), ?_⟩
            have hroom' : m + sglRoom tsg tsgoff = sglRoom rest 0 := hroom
            unfold sglRoom at hroom' ⊢
            rw [List.map_cons, List.sum_cons]
            omega
        · refine ⟨c, [r.copyOf page t c], t :: rest, r.tsgoff + c, r.j,
            Nat.min_le_left _ _, ?_, ?_, fun sgl h => ?_⟩
          · rw [hstep, if_neg h1, Rd.copyTo, ← hl]
            rfl
          · rw [copyBytes_cons, copyBytes_nil, List.append_nil]
            rfl
          · have hfit := h.fits t rfl
            refine ⟨⟨h.tsg_eq, fun t' ht' => ?_, nofun⟩, .inl (by omega), ?_⟩
            · obtain rfl : t = t' := by simpa using ht'
              omega
            · unfold sglRoom
              rw [List.map_cons, List.sum_cons]
              omega

/-! ## The loop over the buffers -/

/-- `cidx_wrb_pend` once a buffer is read to its end. -/
def passBuf (c : ℕ) (b : RxBuf) : ℕ := if b.2.eop then b.2.cidx else c

/-- The bytes a read takes for the content of a buffer. -/
def bufBytes (b : RxBuf) : List UInt8 := pageBytes b.1.page 0 b.1.len

/-- A read leaves the buffers `post` after `p` bytes `part` of the first of them. -/
def LeftAt (post : List RxBuf) (p : ℕ) (part : List UInt8) : Prop :=
  p = 0 ∧ part = [] ∨
    ∃ b t, post = b :: t ∧ p < b.1.len ∧ part = pageBytes b.1.page 0 p

/-- The state of a read after the buffers `pre` and `p` bytes of the next one. -/
def Rd.readTo (r : Rd) (pre : List RxBuf) (p : ℕ) (log : List Copy) (tsg : List SwSg)
    (tsgoff j : ℕ) : Rd :=
  { d := { r.d with
      cidxWrbPend := pre.foldl passBuf r.d.cidxWrbPend
      copied := r.d.copied ++ log }
    pidx := adv r.d.conf.rngsz r.pidx pre.length
    tsg := tsg, tsgoff := tsgoff, j := j
    i := r.i + pre.length
    foff := p
    copied := r.copied + (pre.map (·.1.len)).sum + p }

theorem readTo_nil {r : Rd} (hp : r.pidx < r.d.conf.rngsz) (hf : r.foff = 0) :
    r.readTo [] 0 [] r.tsg r.tsgoff r.j = r := by
  obtain ⟨d, pidx, tsg, tsgoff, j, i, foff, copied⟩ := r
  have hadv : adv d.conf.rngsz pidx 0 = pidx := adv_zero hp
  have hf' : foff = 0 := hf
  unfold Rd.readTo
  simp only [List.append_nil, List.length_nil, hadv, hf']
  rfl

/-- **Where a read stops.**  It goes through some of the unread buffers and leaves the next
one partway at most; it stops only when the buffers or the list are used up. -/
theorem readLoop_spec (sl : List RxBuf) (r : Rd) (hn : r.d.conf.rngsz ≤ 2 ^ 31)
    (hp : r.pidx < r.d.conf.rngsz) (hf : r.foff = 0)
    (hsl : ∀ j (h : j < sl.length), sl[j] = r.d.bufAt (adv r.d.conf.rngsz r.pidx j)) :
    ∃ pre post p part log tsg tsgoff j, sl = pre ++ post ∧ LeftAt post p part ∧
      readLoop sl.length r = r.readTo pre p log tsg tsgoff j ∧
      copyBytes log = pre.flatMap bufBytes ++ part ∧
      ∀ sgl, Cursor sgl r.tsg r.tsgoff r.j → Cursor sgl tsg tsgoff j ∧
        (post = [] ∨ tsg = []) ∧
        (pre.map (·.1.len)).sum + p + sglRoom tsg tsgoff = sglRoom r.tsg r.tsgoff := by
  induction sl generalizing r with
  | nil =>
      refine ⟨[], [], 0, [], [], r.tsg, r.tsgoff, r.j, rfl, .inl ⟨rfl, rfl⟩, ?_, rfl,
        fun sgl h => ⟨h, .inl rfl, Nat.zero_add _⟩⟩
      exact (readTo_nil hp hf).symm
  | cons b sl ih =>
      -- the list may be used up before a buffer is begun
      by_cases h0 : r.tsg.isEmpty = true
      · have hnil : r.tsg = [] := List.isEmpty_iff.mp h0
        refine ⟨[], b :: sl, 0, [], [], r.tsg, r.tsgoff, r.j, rfl, .inl ⟨rfl, rfl⟩, ?_, rfl,
          fun sgl h => ⟨h, .inr hnil, Nat.zero_add _⟩⟩
        rw [List.length_cons, readLoop, if_pos h0]
        exact (readTo_nil hp hf).symm
      · have hb : b = r.d.bufAt r.pidx := by
          have := hsl 0 (Nat.zero_lt_succ _)
          rwa [adv_zero hp] at this
        obtain ⟨m, log, tsg, tsgoff, j, hm, heq, hlog, hcur⟩ :=
          copyOut_spec (r.d.flq.sdesc r.pidx).page r.tsg (r.d.flq.sdesc r.pidx).len
            { r with foff := 0 } rfl
        set rm := { r with foff := 0 }.copyTo m log tsg tsgoff j with hrm
        have hstep : readLoop (b :: sl).length r
            = if m = (r.d.flq.sdesc r.pidx).len then readLoop sl.length rm.nextBuf else rm := by
          have hfoff : rm.foff = m := Nat.zero_add m
          rw [List.length_cons, readLoop, if_neg h0]
          simp only [heq, hfoff]
        rw [hstep]
        have hb1 : b.1 = r.d.flq.sdesc r.pidx := by rw [hb]; rfl
        have hlog' : copyBytes log = pageBytes b.1.page 0 m := by rw [hb1]; exact hlog
        -- a buffer read to its end hands over to the next one; otherwise the list is used up
        by_cases h1 : m = (r.d.flq.sdesc r.pidx).len
        · rw [if_pos h1]
          set r1 := rm.nextBuf with hr1
          have hlt : adv r.d.conf.rngsz r.pidx 1 < r.d.conf.rngsz := adv_lt (by omega)
          have hconf : r1.d.conf = r.d.conf := by
            rw [hr1]
            unfold Rd.nextBuf
            simp only
            split_ifs <;> rfl
          have hflq : r1.d.flq = r.d.flq := by
            rw [hr1]
            unfold Rd.nextBuf
            simp only
            split_ifs <;> rfl
          have hpidx : r1.pidx = adv r.d.conf.rngsz r.pidx 1 :=
            ringIdxIncr_eq_adv hn hp (show 1 ≤ r.d.conf.rngsz by omega)
          obtain ⟨pre, post, p, part, log', tsg', tsgoff', j', hsplit, hleft, heq', hlog'', hcur'⟩ :=
            ih r1 (by rw [hconf]; exact hn) (by rw [hpidx, hconf]; exact hlt) rfl (by
              intro k hk
              have := hsl (k + 1) (by rw [List.length_cons]; omega)
              rw [List.getElem_cons_succ] at this
              rw [this, hconf, hpidx, adv_adv, Nat.add_comm 1 k]
              unfold Descq.bufAt
              rw [hflq])
          refine ⟨b :: pre, post, p, part, log ++ log', tsg', tsgoff', j',
            by rw [hsplit, List.cons_append], hleft, ?_, ?_, fun sgl h => ?_⟩
          · rw [heq']
            unfold Rd.readTo
            rw [hconf, hpidx, adv_adv, List.foldl_cons, List.length_cons, List.map_cons,
              List.sum_cons, hb1, ← h1]
            have hd : r1.d = { r.d with
                cidxWrbPend := passBuf r.d.cidxWrbPend b
                copied := r.d.copied ++ log } := by
              rw [hr1, hb]
              unfold Rd.nextBuf passBuf Descq.bufAt
              have hinfo : rm.d.flq.sdescInfo rm.pidx = r.d.flq.sdescInfo r.pidx := rfl
              simp only [hinfo]
              split_ifs <;> rfl
            have hi : r1.i = r.i + 1 := rfl
            have hc : r1.copied = r.copied + m := rfl
            rw [hd, hi, hc]
            simp only [List.append_assoc, Nat.add_assoc, Nat.add_comm 1]
          · rw [copyBytes_append, hlog', hlog'', List.flatMap_cons, bufBytes, hb1, ← h1,
              List.append_assoc]
          · obtain ⟨hc1, _, hroom1⟩ := hcur sgl h
            obtain ⟨hc2, hend, hroom2⟩ := hcur' sgl hc1
            refine ⟨hc2, hend, ?_⟩
            have hroom2' : (pre.map (·.1.len)).sum + p + sglRoom tsg' tsgoff'
                = sglRoom tsg tsgoff := hroom2
            have hroom1' : m + sglRoom tsg tsgoff = sglRoom r.tsg r.tsgoff := hroom1
            rw [List.map_cons, List.sum_cons, hb1, ← h1]
            omega
        · rw [if_neg h1]
          refine ⟨[], b :: sl, m, pageBytes b.1.page 0 m, log, tsg, tsgoff, j, rfl,
            .inr ⟨b, sl, rfl, by rw [hb1]; omega, rfl⟩, ?_, hlog', fun sgl h => ?_⟩
          · rw [hrm]
            unfold Rd.readTo Rd.copyTo
            rw [List.length_nil, adv_zero hp, Nat.zero_add]
            rfl
          · obtain ⟨hc1, hend, hroom1⟩ := hcur sgl h
            refine ⟨hc1, .inr (hend.resolve_left h1), ?_⟩
            have hroom1' : m + sglRoom tsg tsgoff = sglRoom r.tsg r.tsgoff := hroom1
            rw [List.map_nil, List.sum_nil]
            omega

end Qdma
