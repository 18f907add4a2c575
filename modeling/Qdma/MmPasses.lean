/-
# What the passes of a memory-mapped request cover

`descq_mm_proc_request` cuts every entry of the scatter list into descriptors of at most
`2 ^ 28 - 1` bytes and goes on, when it is called again, where `sgl_find_offset` says.  A pass
that begins between two entries covers the bytes it should; one that begins inside an entry does
not: `sg_offset` is set to zero before it is used, and the entry is sent again from its start.

`mm_covered_iff` says that this is the only way a request is not covered exactly, and
`mm_resumes_inside` is a request that is not.
-/
import Qdma.Passes

namespace Qdma

open Exec RingIndex AddrSpan

/-! ## The law -/

/-- The range of an entry. -/
def SwSg.range (sg : SwSg) : ℕ × ℕ := (sg.dmaAddr, sg.len)

/-- The address of a descriptor on the host. -/
def MmDesc.host (c2h : Bool) (mm : MmDesc) : ℕ := if c2h then mm.dstAddr else mm.srcAddr

/-- The address of a descriptor on the card. -/
def MmDesc.card (c2h : Bool) (mm : MmDesc) : ℕ := if c2h then mm.srcAddr else mm.dstAddr

/-- The bytes of the host a descriptor moves. -/
def Desc.hostRange (c2h : Bool) (s : Desc) : ℕ × ℕ := (s.mm.host c2h, s.len false)

/-- The bytes of the card a descriptor moves. -/
def Desc.cardRange (c2h : Bool) (s : Desc) : ℕ × ℕ := (s.mm.card c2h, s.len false)

/-- The bytes of the host the descriptors move, in order. -/
def hostBytes (c2h : Bool) (out : List Desc) : List ℕ :=
  spans (2 ^ 64) (out.map (Desc.hostRange c2h))

/-- The bytes of the card the descriptors move, in order. -/
def cardBytes (c2h : Bool) (out : List Desc) : List ℕ :=
  spans (2 ^ 64) (out.map (Desc.cardRange c2h))

/-- The bytes of a scatter list, in order. -/
def sglBytes (sgl : List SwSg) : List ℕ := spans (2 ^ 64) (sgl.map SwSg.range)

/-- **The request is covered exactly so far**: its descriptors are short enough, they move the
first bytes of the scatter list, each once and in order, to or from consecutive addresses of the
card; it is on `pend_list` exactly if its offset has reached its count, and exactly if all the
bytes are covered; and no pass has failed. -/
structure MmCovered (c2h : Bool) (req : Request) (s : Passes) : Prop where
  fits : ∀ x ∈ s.out, x.len false ≤ qdmaDescBlenMax
  host : hostBytes c2h s.out <+: sglBytes req.sgl
  card : cardBytes c2h s.out = span (2 ^ 64) req.epAddr (hostBytes c2h s.out).length
  moved : s.moved = true ↔ s.cb.offset = req.count
  all : s.moved = true ↔ hostBytes c2h s.out = sglBytes req.sgl
  served : 0 ≤ s.rv

/-- A pass of a memory-mapped queue of the direction `c2h`. -/
def MmReady (c2h : Bool) (s : Passes) (d : Descq) : Prop :=
  s.Ready d ∧ d.conf.st = false ∧ d.conf.c2h = c2h

/-- The pass finds no room, or begins between two entries. -/
def BeginsWell (s : Passes) (d : Descq) : Prop :=
  d.avail = 0 ∨ ∃ j, s.cb.offset = sglLen (s.cb.req.sgl.take j)

/-- The request as it is submitted. -/
def Request.unserved (req : Request) (id : ℕ) : Passes := { cb := req.newCb id }

/-! ## Ranges of pieces -/

/-- The bytes of the host a piece moves. -/
def Piece.range (p : Piece) : ℕ × ℕ := (p.addr, p.len)

/-- The addresses on the card of pieces that begin at `a`. -/
def cards : ℕ → List Piece → List ℕ
  | _, [] => []
  | a, p :: ps => a :: cards (u64 (a + p.len)) ps

theorem spans_cut {max : ℕ} (hmax : 0 < max) (last : Bool) {fuel tlen : ℕ} (addr : ℕ)
    (h : tlen ≤ fuel) :
    spans (2 ^ 64) ((cut max last fuel tlen addr).map Piece.range) = span (2 ^ 64) addr tlen := by
  induction fuel generalizing tlen addr with
  | zero =>
      obtain rfl : tlen = 0 := by omega
      rfl
  | succ fuel ih =>
      rw [cut]
      by_cases h0 : tlen = 0
      · rw [if_pos h0, h0]
        rfl
      · rw [if_neg h0, List.map_cons, spans_cons, ih _ (by omega), u64, span_mod]
        show span (2 ^ 64) addr (min tlen max) ++ _ = _
        rw [span_append, Nat.add_sub_cancel' (Nat.min_le_left _ _)]

/-- **The pieces of a scatter list carry its bytes.** -/
theorem spans_sglPieces (sgl : List SwSg) :
    spans (2 ^ 64) ((sglPieces false sgl).map Piece.range) = sglBytes sgl := by
  induction sgl with
  | nil => rfl
  | cons sg sgl ih =>
      have hmax : 0 < qdmaDescBlenMax := by decide
      rw [sglPieces, List.map_append, spans_append, ih, sglBytes, sglBytes, List.map_cons,
        spans_cons]
      congr 1
      exact spans_cut hmax _ _ le_rfl

/-- Pieces that follow one another on the card make one range of it. -/
theorem spans_cards (ps : List Piece) (a : ℕ) :
    spans (2 ^ 64) ((cards a ps).zip (ps.map Piece.len)) = span (2 ^ 64) a (bytes ps) := by
  induction ps generalizing a with
  | nil => rfl
  | cons p ps ih =>
      have hb : bytes (p :: ps) = p.len + bytes ps := by simp [bytes]
      rw [cards, List.map_cons, List.zip_cons_cons, spans_cons, ih, u64, span_mod, hb,
        span_append]

theorem total_pieces (ps : List Piece) : total (ps.map Piece.range) = bytes ps := by
  rw [total, List.map_map]
  rfl

theorem total_sgl (sgl : List SwSg) : total (sgl.map SwSg.range) = sglLen sgl := by
  rw [total, List.map_map]
  rfl

@[simp] theorem length_sglBytes (sgl : List SwSg) : (sglBytes sgl).length = sglLen sgl := by
  rw [sglBytes, length_spans, total_sgl]

/-! ## The descriptors of a pass -/

/-- The slots a fold over pieces has written, in order. -/
def written (d : Descq) (pidx k : ℕ) : List Desc :=
  (List.range k).map (fun j => d.desc.slot (adv d.conf.rngsz pidx j))

theorem written_succ (d : Descq) (pidx k : ℕ) (hp : pidx < d.conf.rngsz) :
    written d pidx (k + 1)
      = d.desc.slot pidx :: written d (adv d.conf.rngsz pidx 1) k := by
  unfold written
  rw [List.range_succ_eq_map, List.map_cons, List.map_map, adv_zero hp]
  congr 1
  apply List.map_congr_left
  intro j _
  rw [Function.comp_apply, adv_adv, Nat.succ_eq_add_one, Nat.add_comm 1 j]

/-- The memory-mapped fold puts the pieces' addresses into the slots it writes. -/
theorem mmFold_addrs (id : ℕ) (ps : List Piece) {f g : Fill}
    (hg : ps.foldl (fun f p => mmPut id f p.len p.addr) f = g) (hp : f.d.pidx < f.d.conf.rngsz)
    (hlen : ps.length < f.d.conf.rngsz) :
    (written g.d f.d.pidx ps.length).map (fun s => s.mm.host f.d.conf.c2h) = ps.map Piece.addr ∧
      (written g.d f.d.pidx ps.length).map (fun s => s.mm.card f.d.conf.c2h)
        = cards f.epAddr ps := by
  induction ps generalizing f with
  | nil => exact ⟨rfl, rfl⟩
  | cons p ps ih =>
      rw [List.length_cons] at hlen
      rw [List.foldl_cons] at hg
      have hp1 : adv f.d.conf.rngsz f.d.pidx 1 < f.d.conf.rngsz := adv_lt (by omega)
      have hpidx : (mmPut id f p.len p.addr).d.pidx = adv f.d.conf.rngsz f.d.pidx 1 := by
        rw [adv_one hp]
        rfl
      obtain ⟨hhost, hcard⟩ := ih hg (by rw [hpidx]; exact hp1)
        (by show ps.length < f.d.conf.rngsz; omega)
      rw [hpidx] at hhost hcard
      obtain ⟨ws, hws, hd, -⟩ := mmFold_spec id ps (mmPut id f p.len p.addr)
        (by rw [hpidx]; exact hp1)
      have hwl := hws.length_eq
      rw [hg] at hd
      have hconf : g.d.conf = f.d.conf := by
        rw [hd]
        rfl
      -- the rest of the fold leaves the first slot alone
      have hfirst : g.d.desc.slot f.d.pidx
          = (mmPut id f p.len p.addr).d.desc.slot f.d.pidx := by
        rw [hd, hpidx]
        exact fill_behind _ hp ws (by omega)
      have hput : ((mmPut id f p.len p.addr).d.desc.slot f.d.pidx).mm
          = if f.d.conf.c2h then
              { srcAddr := f.epAddr, dstAddr := p.addr, flagLen := p.len ||| 1 <<< sDescFDv }
            else
              { dstAddr := f.epAddr, srcAddr := p.addr, flagLen := p.len ||| 1 <<< sDescFDv } := by
        simp only [mmPut, Descq.putDesc, Function.update_self]
      rw [List.length_cons, written_succ _ _ _ (by rw [hconf]; exact hp), hconf, List.map_cons,
        List.map_cons, List.map_cons, hfirst, cards]
      simp only [hput]
      constructor
      · refine congrArg₂ List.cons ?_ hhost
        cases f.d.conf.c2h <;> rfl
      · refine congrArg₂ List.cons ?_ hcard
        cases f.d.conf.c2h <;> rfl

/-- The flags set behind the loop, the bookkeeping and the doorbell leave the addresses alone. -/
theorem descqMmProcRequest_addr {d : Descq} {cb : SgtReqCb} {i off : ℕ} (h0 : d.avail ≠ 0)
    (hr : resumeAt cb = some (i, off)) (j : ℕ) {f : Fill}
    (hf : mmFillSgl cb.id d.avail (cb.req.sgl.drop i) off
      { d := d, epAddr := u64 (cb.req.epAddr + cb.offset) } = f) (c2h : Bool) :
    ((descqMmProcRequest d cb).1.desc.slot j).mm.host c2h = (f.d.desc.slot j).mm.host c2h ∧
      ((descqMmProcRequest d cb).1.desc.slot j).mm.card c2h = (f.d.desc.slot j).mm.card c2h := by
  have hflag : ∀ (q : Descq) (k bit : ℕ), ((q.mmSetFlag k bit).desc.slot j).mm.host c2h
      = (q.desc.slot j).mm.host c2h ∧ ((q.mmSetFlag k bit).desc.slot j).mm.card c2h
      = (q.desc.slot j).mm.card c2h := by
    intro q k bit
    unfold Descq.mmSetFlag
    by_cases hj : j = k
    · subst hj
      simp only [Function.update_self]
      exact ⟨rfl, rfl⟩
    · simp only [Function.update_of_ne hj, and_self]
  unfold descqMmProcRequest
  simp only [if_neg h0, hr, hf]
  cases hend : f.descEnd with
  | none => exact ⟨rfl, rfl⟩
  | some k =>
      have hcharge := (chargeRequest_frame ((f.d.mmSetFlag k sDescFEop).mmSetFlag d.pidx sDescFSop)
        cb f.descCnt f.dataCnt).desc
      have h1 := hflag f.d k sDescFEop
      have h2 := hflag (f.d.mmSetFlag k sDescFEop) d.pidx sDescFSop
      simp only [descqC2hPidxUpdate, descqH2cPidxUpdate, ite_self, Descq.pidxUpdate]
      rw [hcharge]
      exact ⟨h2.1.trans h1.1, h2.2.trans h1.2⟩

/-! ## One pass -/

/-- The pieces a pass on `d` posts that goes on with entry `i`. -/
def Passes.fits (s : Passes) (d : Descq) (i : ℕ) : List Piece :=
  (sglPieces false (s.cb.req.sgl.drop i)).take d.avail

/-- What a pass that posts does. -/
structure MmPass (c2h : Bool) (s s' : Passes) (ps : List Piece) : Prop where
  cb : s'.cb = s.cb.charge ps.length (bytes ps)
  moved : s'.moved = true ↔ s'.cb.offset = s.cb.req.count
  rv : s'.rv = 0
  out : ∃ new, s'.out = s.out ++ new ∧ new.map (Desc.hostRange c2h) = ps.map Piece.range ∧
    new.map (Desc.cardRange c2h)
      = (cards (u64 (s.cb.req.epAddr + s.cb.offset)) ps).zip (ps.map Piece.len)

/-- The slots a pass was the first to write, in order, are those between the two indices. -/
theorem stretch_written {d d' : Descq} {k : ℕ} (hp : d.pidx < d.conf.rngsz)
    (hk : k < d.conf.rngsz) (hconf : d'.conf = d.conf) :
    stretch d.conf.rngsz d'.desc.slot d.pidx (adv d.conf.rngsz d.pidx k) = written d' d.pidx k := by
  rw [stretch, dist_adv hp hk, written, hconf]

/-- **A pass that finds room and an entry to go on with posts the pieces that fit.** -/
theorem mmPass_of_ready {c2h : Bool} {s : Passes} {d : Descq} (h : MmReady c2h s d)
    (h0 : d.avail ≠ 0) {i off : ℕ} (hr : resumeAt s.cb = some (i, off))
    (hne : sglPieces false (s.cb.req.sgl.drop i) ≠ []) :
    MmPass c2h s (s.step descqMmProcRequest d) (s.fits d i) := by
  obtain ⟨hready, hst, hc2h⟩ := h
  have hp := hready.pidx_lt
  have ha := hready.avail_lt
  have hout := descqMmProcRequest_outcome s.cb hst hp ha
  generalize hres : descqMmProcRequest d s.cb = res at hout
  cases hout with
  | full h => exact absurd h h0
  | failed _ _ why =>
      rcases why with hnone | ⟨-, j, off', hj, hnil⟩
      · rw [hr] at hnone
        cases hnone
      · rw [hr] at hj
        cases hj
        exact absurd hnil hne
  | @posted j off' d' ps _ hr' hps hpost =>
      rw [hr] at hr'
      cases hr'
      rw [hst] at hps
      obtain rfl : ps = s.fits d i := hps
      have hlen : (s.fits d i).length < d.conf.rngsz := by
        rw [Passes.fits, List.length_take]
        omega
      have hconf : d'.conf = d.conf := by
        rw [hpost.frame]
        rfl
      have hdesc : (descqMmProcRequest d s.cb).1.desc = d'.desc := by
        rw [hres]
        exact (chargeRequest_frame d' s.cb _ _).desc
      rw [Passes.step_posted hready hres hpost, stretch_written hp hlen hconf]
      refine ⟨rfl, decide_eq_true_iff, rfl, written d' d.pidx (s.fits d i).length, rfl, ?_⟩
      have hfold := (mmFillSgl_eq s.cb.id d.avail (s.cb.req.sgl.drop i) off
        { d := d, epAddr := u64 (s.cb.req.epAddr + s.cb.offset) }).symm
      obtain ⟨hhost, hcard⟩ := mmFold_addrs s.cb.id _ hfold hp hlen
      -- the slots of the loop and those of the whole call have the same addresses
      have hgconf : (mmFillSgl s.cb.id d.avail (s.cb.req.sgl.drop i) off
          { d := d, epAddr := u64 (s.cb.req.epAddr + s.cb.offset) }).d.conf = d.conf := by
        obtain ⟨ws, -, hd, -⟩ := mmFold_spec s.cb.id (s.fits d i)
          { d := d, epAddr := u64 (s.cb.req.epAddr + s.cb.offset) } hp
        have hconf' := congrArg Descq.conf hd
        rw [← hfold]
        exact hconf'
      have haddr := fun j => descqMmProcRequest_addr h0 hr j rfl c2h
      have hlens : (written d' d.pidx (s.fits d i).length).map (Desc.len false)
          = (s.fits d i).map Piece.len := by
        apply List.ext_getElem
        · simp [written]
        · intro k h1 h2
          have hk : k < (s.fits d i).length := by simpa using h2
          have := hpost.len k hk
          rw [hst] at this
          simpa [written, hconf] using this
      have hhost' : (written d' d.pidx (s.fits d i).length).map (fun x => x.mm.host c2h)
          = (s.fits d i).map Piece.addr := by
        refine Eq.trans ?_ hhost
        unfold written
        rw [hgconf, hconf, List.map_map, List.map_map]
        apply List.map_congr_left
        intro k _
        have := (haddr (adv d.conf.rngsz d.pidx k)).1
        rw [hdesc] at this
        simp only [Function.comp_apply, hc2h]
        exact this
      have hcard' : (written d' d.pidx (s.fits d i).length).map (fun x => x.mm.card c2h)
          = cards (u64 (s.cb.req.epAddr + s.cb.offset)) (s.fits d i) := by
        refine Eq.trans ?_ hcard
        unfold written
        rw [hgconf, hconf, List.map_map, List.map_map]
        apply List.map_congr_left
        intro k _
        have := (haddr (adv d.conf.rngsz d.pidx k)).2
        rw [hdesc] at this
        simp only [Function.comp_apply, hc2h]
        exact this
      constructor
      · have := congrArg₂ List.zip hhost' hlens
        rw [List.zip_map', List.zip_map'] at this
        exact this
      · have := congrArg₂ List.zip hcard' hlens
        rw [List.zip_map'] at this
        exact this

/-! ## Where a pass goes on -/

theorem sglLen_take_mono (sgl : List SwSg) {j k : ℕ} (h : j ≤ k) :
    sglLen (sgl.take j) ≤ sglLen (sgl.take k) := by
  have hle := sglLen_take_le (sgl.take k) j
  rwa [List.take_take, min_eq_left h] at hle

/-- `sgl_find_offset` finds the entry the byte at the offset belongs to. -/
theorem sglFindOffsetGo_inside {offset : ℕ} (sgl : List SwSg) (hpos : ∀ sg ∈ sgl, 0 < sg.len)
    (len i : ℕ) (hsum : len + sglLen sgl < 2 ^ 32) (hlt : len < offset)
    (hmore : offset < len + sglLen sgl) :
    ∃ k off, sglFindOffsetGo offset sgl len i = some (i + k, off) ∧ k < sgl.length ∧
      len + sglLen (sgl.take k) ≤ offset ∧ offset < len + sglLen (sgl.take (k + 1)) := by
  induction sgl generalizing len i with
  | nil =>
      rw [sglLen_nil] at hmore
      omega
  | cons sg sgl ih =>
      rw [sglLen_cons] at hsum hmore
      have hu : u32 (len + sg.len) = len + sg.len := u32_of_lt (by omega)
      rw [sglFindOffsetGo]
      simp only [hu]
      by_cases h1 : len + sg.len = offset
      · -- the offset is the end of this entry, and there is another
        rw [if_pos h1]
        cases sgl with
        | nil =>
            rw [sglLen_nil] at hmore
            omega
        | cons sg' sgl =>
            have hpos' := hpos sg' (List.mem_cons_of_mem _ (List.mem_cons_self ..))
            refine ⟨1, 0, rfl, by simp, ?_, ?_⟩
            · simp only [List.take_succ_cons, List.take_zero, sglLen_cons, sglLen_nil]
              omega
            · simp only [List.take_succ_cons, List.take_zero, sglLen_cons, sglLen_nil]
              omega
      · rw [if_neg h1]
        by_cases h2 : len + sg.len > offset
        · rw [if_pos h2]
          refine ⟨0, _, rfl, by simp, ?_, ?_⟩
          · rw [List.take_zero, sglLen_nil]
            omega
          · rw [List.take_succ_cons, List.take_zero, sglLen_cons, sglLen_nil]
            omega
        · rw [if_neg h2]
          obtain ⟨k, off, hk, hlen, hle, hgt⟩ := ih (fun x hx => hpos x (List.mem_cons_of_mem _ hx))
            (len + sg.len) (i + 1) (by omega) (by omega) (by omega)
          refine ⟨k + 1, off, by rw [hk]; congr 2; omega, by simpa using hlen, ?_, ?_⟩
          · rw [List.take_succ_cons, sglLen_cons]
            omega
          · rw [List.take_succ_cons, sglLen_cons]
            omega

/-- **The entry a pass goes on with** is the one the next byte belongs to. -/
theorem resumeAt_inside {cb : SgtReqCb} (hpos : ∀ sg ∈ cb.req.sgl, 0 < sg.len)
    (htotal : sglLen cb.req.sgl = cb.req.count) (hlt : cb.offset < cb.req.count) :
    ∃ i off, resumeAt cb = some (i, off) ∧ i < cb.req.sgl.length ∧
      sglLen (cb.req.sgl.take i) ≤ cb.offset ∧ cb.offset < sglLen (cb.req.sgl.take (i + 1)) := by
  have hcount := cb.req.count_lt
  unfold resumeAt
  by_cases h0 : cb.offset = 0
  · rw [if_neg (not_not.mpr h0)]
    cases hsgl : cb.req.sgl with
    | nil =>
        rw [hsgl, sglLen_nil] at htotal
        omega
    | cons sg sgl =>
        have hsg := hpos sg (by rw [hsgl]; exact List.mem_cons_self ..)
        refine ⟨0, 0, rfl, by simp, ?_, ?_⟩
        · rw [List.take_zero, sglLen_nil]
          omega
        · rw [List.take_succ_cons, List.take_zero, sglLen_cons, sglLen_nil]
          omega
  · rw [if_pos h0, sglFindOffset]
    obtain ⟨k, off, hk, hlen, hle, hgt⟩ := sglFindOffsetGo_inside cb.req.sgl hpos 0 0
      (by rw [htotal]; omega) (Nat.pos_of_ne_zero h0) (by rw [htotal]; omega)
    rw [Nat.zero_add] at hk
    refine ⟨k, off, ?_, hlen, by omega, by omega⟩
    rw [hk]
    simp [Option.filter, Request.sgcnt, hlen]

/-- The first piece of entries that are not empty is at the address of the first. -/
theorem sglPieces_head {sgl : List SwSg} {i : ℕ} (hi : i < sgl.length)
    (hpos : ∀ sg ∈ sgl, 0 < sg.len) :
    ∃ p ps, sglPieces false (sgl.drop i) = p :: ps ∧ p.addr = sgl[i].dmaAddr ∧ 0 < p.len := by
  have hsg := hpos sgl[i] (List.getElem_mem hi)
  obtain ⟨n, hn⟩ : ∃ n, sgl[i].len = n + 1 := ⟨sgl[i].len - 1, by omega⟩
  have hmax : 0 < qdmaDescBlenMax := by decide
  rw [List.drop_eq_getElem_cons hi, sglPieces]
  simp only [entryPieces, mmPieces, Bool.false_eq_true, if_false, hn, cut, Nat.succ_ne_zero]
  refine ⟨_, _, rfl, rfl, ?_⟩
  show 0 < min (n + 1) qdmaDescBlenMax
  omega

/-! ## The invariant -/

/-- **What the passes keep**: the bytes covered are the first `offset` ones. -/
structure MmInv (c2h : Bool) (req : Request) (s : Passes) : Prop where
  req_eq : s.cb.req = req
  offset : s.cb.offset = (hostBytes c2h s.out).length
  host : hostBytes c2h s.out <+: sglBytes req.sgl
  card : cardBytes c2h s.out = span (2 ^ 64) req.epAddr s.cb.offset
  moved : s.moved = true ↔ s.cb.offset = req.count
  served : 0 ≤ s.rv

theorem MmInv.covered {c2h : Bool} {req : Request} {s : Passes} (h : MmInv c2h req s)
    (htotal : sglLen req.sgl = req.count) : MmCovered c2h req s := by
  refine ⟨?_, h.host, by rw [h.card, h.offset], h.moved, ?_, h.served⟩
  · intro x _
    have hlt : x.len false < 2 ^ sDescFDv := Nat.mod_lt _ (Nat.two_pow_pos _)
    have hmax : qdmaDescBlenMax = 2 ^ sDescFDv - 1 := rfl
    omega
  · rw [h.moved, h.offset, ← htotal, ← length_sglBytes]
    exact ⟨fun hlen => h.host.eq_of_length hlen, fun heq => congrArg List.length heq⟩

theorem hostBytes_append (c2h : Bool) (out new : List Desc) :
    hostBytes c2h (out ++ new) = hostBytes c2h out ++ hostBytes c2h new := by
  rw [hostBytes, List.map_append, spans_append]
  rfl

theorem cardBytes_append (c2h : Bool) (out new : List Desc) :
    cardBytes c2h (out ++ new) = cardBytes c2h out ++ cardBytes c2h new := by
  rw [cardBytes, List.map_append, spans_append]
  rfl

/-- A request that has not moved has bytes to go. -/
theorem MmInv.more {c2h : Bool} {req : Request} {s : Passes} (h : MmInv c2h req s)
    (htotal : sglLen req.sgl = req.count) (hgoing : s.moved = false) : s.cb.offset < req.count := by
  have hlen := h.host.length_le
  rw [length_sglBytes, htotal, ← h.offset] at hlen
  have hne : s.cb.offset ≠ req.count := by
    intro heq
    rw [h.moved.mpr heq] at hgoing
    cases hgoing
  omega

/-- **A pass that begins between two entries** goes on with the bytes that come next. -/
theorem MmInv.step {c2h : Bool} {req : Request} {s : Passes} {d : Descq} (h : MmInv c2h req s)
    (hpos : ∀ sg ∈ req.sgl, 0 < sg.len) (htotal : sglLen req.sgl = req.count)
    (hd : MmReady c2h s d) (hok : BeginsWell s d) :
    MmInv c2h req (s.step descqMmProcRequest d) := by
  by_cases h0 : d.avail = 0
  · -- the ring is full: nothing changes
    have hrun : descqMmProcRequest d s.cb = (d, 0) := by
      unfold descqMmProcRequest
      simp only [if_pos h0]
    rw [Passes.step_same hd.1 hrun]
    exact ⟨h.req_eq, h.offset, h.host, h.card, h.moved, le_refl 0⟩
  obtain rfl := h.req_eq
  have hlt := h.more htotal hd.1.going.1
  have hcount := s.cb.req.count_lt
  obtain ⟨i, off, hr, hi, hle, hgt⟩ := resumeAt_inside hpos htotal hlt
  obtain ⟨j, hj⟩ := hok.resolve_left h0
  have hat : sglLen (s.cb.req.sgl.take i) = s.cb.offset := by
    by_cases hji : j ≤ i
    · have := sglLen_take_mono s.cb.req.sgl hji
      omega
    · have := sglLen_take_mono s.cb.req.sgl (show i + 1 ≤ j by omega)
      omega
  obtain ⟨p, ps, hpieces, -, -⟩ := sglPieces_head hi hpos
  obtain ⟨hcb, hmoved, hrv, new, hout, hhost, hcard⟩ :=
    mmPass_of_ready hd h0 hr (by rw [hpieces]; exact List.cons_ne_nil _ _)
  have hnew : hostBytes c2h new = spans (2 ^ 64) ((s.fits d i).map Piece.range) := by
    rw [hostBytes, hhost]
  have hprefix : hostBytes c2h (s.step descqMmProcRequest d).out <+: sglBytes s.cb.req.sgl := by
    rw [hout, hostBytes_append]
    apply prefix_append_spans (k := i)
    · -- the bytes so far are those of the entries before
      rw [← List.map_take]
      have hlen : (hostBytes c2h s.out).length = (sglBytes (s.cb.req.sgl.take i)).length := by
        rw [← h.offset, length_sglBytes, hat]
      have hpre : sglBytes (s.cb.req.sgl.take i) <+: sglBytes s.cb.req.sgl := by
        rw [sglBytes, List.map_take]
        exact spans_take _ _ _
      exact (List.prefix_of_prefix_length_le h.host hpre hlen.le).eq_of_length hlen
    · rw [hnew, ← List.map_drop, Passes.fits, List.map_take]
      refine (spans_take _ _ _).trans ?_
      rw [spans_sglPieces]
      exact List.prefix_rfl
  have hbytes : (hostBytes c2h (s.step descqMmProcRequest d).out).length
      = s.cb.offset + bytes (s.fits d i) := by
    rw [hout, hostBytes_append, List.length_append, ← h.offset, hnew, length_spans, total_pieces]
  have hoff : (s.step descqMmProcRequest d).cb.offset = s.cb.offset + bytes (s.fits d i) := by
    have hend := hprefix.length_le
    rw [hbytes, length_sglBytes, htotal] at hend
    rw [hcb]
    exact u32_of_lt (by omega)
  refine ⟨by rw [hcb]; rfl, hoff.trans hbytes.symm, hprefix, ?_, hmoved, hrv.ge⟩
  rw [hout, cardBytes_append, h.card, cardBytes, hcard, spans_cards, u64, span_mod, span_append,
    hoff]

/-! ## A pass that begins inside an entry -/

/-- The descriptors have left the scatter list, for good. -/
def Astray (c2h : Bool) (req : Request) (s : Passes) : Prop :=
  ¬ hostBytes c2h s.out <+: sglBytes req.sgl

theorem Astray.step {c2h : Bool} {req : Request} {s : Passes} (h : Astray c2h req s)
    (proc : Descq → SgtReqCb → Descq × ℤ) (d : Descq) : Astray c2h req (s.step proc d) := by
  intro hpre
  apply h
  unfold Passes.step at hpre
  simp only [hostBytes_append] at hpre
  exact (List.prefix_append _ _).trans hpre

/-- **A pass that begins inside an entry** sends it again from its start. -/
theorem MmInv.astray {c2h : Bool} {req : Request} {s : Passes} {d : Descq} (h : MmInv c2h req s)
    (hpos : ∀ sg ∈ req.sgl, 0 < sg.len) (htotal : sglLen req.sgl = req.count)
    (hd : MmReady c2h s d) (hbad : ¬ BeginsWell s d) :
    Astray c2h req (s.step descqMmProcRequest d) := by
  obtain rfl := h.req_eq
  have h0 : d.avail ≠ 0 := fun h0 => hbad (.inl h0)
  have hlt := h.more htotal hd.1.going.1
  have hcount := s.cb.req.count_lt
  obtain ⟨i, off, hr, hi, hle, hgt⟩ := resumeAt_inside hpos htotal hlt
  have hne : sglLen (s.cb.req.sgl.take i) ≠ s.cb.offset := fun heq => hbad (.inr ⟨i, heq.symm⟩)
  obtain ⟨p, ps, hpieces, haddr, hlen⟩ := sglPieces_head hi hpos
  obtain ⟨-, -, -, new, hout, hhost, -⟩ :=
    mmPass_of_ready hd h0 hr (by rw [hpieces]; exact List.cons_ne_nil _ _)
  intro hpre
  -- the byte behind those covered, as the pass has it and as the list has it
  obtain ⟨n, hn⟩ : ∃ n, d.avail = n + 1 := ⟨d.avail - 1, by omega⟩
  have hcut : hostBytes c2h (s.step descqMmProcRequest d).out
      = hostBytes c2h s.out ++ span (2 ^ 64) p.addr p.len
        ++ spans (2 ^ 64) ((ps.take n).map Piece.range) := by
    rw [hout, hostBytes_append, hostBytes, hostBytes, hhost, Passes.fits, hpieces, hn,
      List.take_succ_cons, List.map_cons, spans_cons, List.append_assoc]
    rfl
  rw [hcut] at hpre
  have hgot := head_of_prefix hlen hpre
  have hentry : (s.cb.req.sgl.map SwSg.range)[i]? = some (s.cb.req.sgl[i].range) := by
    rw [List.getElem?_map, List.getElem?_eq_getElem hi]
    rfl
  have hsucc : sglLen (s.cb.req.sgl.take (i + 1))
      = sglLen (s.cb.req.sgl.take i) + s.cb.req.sgl[i].len := by
    rw [List.take_add_one, List.getElem?_eq_getElem hi, sglLen, List.map_append, List.sum_append]
    simp [sglLen]
  have hwant := getElem?_spans (m := 2 ^ 64) hentry
    (i := s.cb.offset - sglLen (s.cb.req.sgl.take i))
    (show _ < s.cb.req.sgl[i].len by omega)
  rw [← List.map_take, total_sgl, show sglLen (s.cb.req.sgl.take i)
    + (s.cb.offset - sglLen (s.cb.req.sgl.take i)) = (hostBytes c2h s.out).length by
      rw [← h.offset]; omega] at hwant
  have hsame := Option.some.inj (hgot.symm.trans hwant)
  rw [haddr] at hsame
  simp only [SwSg.range] at hsame
  omega

/-! ## The law over all passes -/

/-- Either every pass began between two entries, or the descriptors have gone astray. -/
theorem mmPasses_cases {c2h : Bool} {req : Request} {id : ℕ}
    (hpos : ∀ sg ∈ req.sgl, 0 < sg.len) (htotal : sglLen req.sgl = req.count)
    (hne : req.sgl ≠ []) {ds : List Descq} {s : Passes}
    (h : Run (Passes.step descqMmProcRequest) (MmReady c2h) (req.unserved id) ds s) :
    Run (Passes.step descqMmProcRequest) (fun s d => MmReady c2h s d ∧ BeginsWell s d)
        (req.unserved id) ds s ∧ MmInv c2h req s ∨ Astray c2h req s := by
  induction h with
  | nil =>
      have hcount : req.count ≠ 0 := by
        obtain ⟨sg, sgl, hsgl⟩ := List.exists_cons_of_ne_nil hne
        have hsg := hpos sg (by rw [hsgl]; exact List.mem_cons_self ..)
        rw [hsgl, sglLen_cons] at htotal
        omega
      refine .inl ⟨Run.nil, rfl, rfl, List.nil_prefix, rfl, ?_, le_refl 0⟩
      exact iff_of_false (show ¬ false = true by decide) hcount.symm
  | @snoc ds s d _ hd ih =>
      rcases ih with ⟨hrun, hinv⟩ | hbad
      · by_cases hok : BeginsWell s d
        · exact .inl ⟨Run.snoc hrun ⟨hd, hok⟩, hinv.step hpos htotal hd hok⟩
        · exact .inr (hinv.astray hpos htotal hd hok)
      · exact .inr (hbad.step _ _)

/-- A request without entries never moves. -/
theorem unmoved_of_nil {c2h : Bool} {req : Request} {id : ℕ} (hnil : req.sgl = [])
    {ds : List Descq} {s : Passes}
    (h : Run (Passes.step descqMmProcRequest) (MmReady c2h) (req.unserved id) ds s) :
    s.moved = false ∧ s.cb = req.newCb id := by
  refine h.invariant (I := fun s => s.moved = false ∧ s.cb = req.newCb id) ⟨rfl, rfl⟩ ?_
  rintro s d ⟨hmoved, hcb⟩ hd
  have hsame : ∃ rv, descqMmProcRequest d s.cb = (d, rv) := by
    have hsgl : s.cb.req.sgl = [] := by rw [hcb]; exact hnil
    have hr : resumeAt s.cb = some (0, 0) := by rw [hcb]; rfl
    unfold descqMmProcRequest
    simp only [hr, hsgl, List.drop_nil, mmFillSgl]
    split_ifs
    · exact ⟨0, rfl⟩
    · exact ⟨eio, rfl⟩
  obtain ⟨rv, hrv⟩ := hsame
  rw [Passes.step_same hd.1 hrv]
  exact ⟨hmoved, hcb⟩

/-- **When a memory-mapped request is covered exactly.**  Whatever rings its passes find, what
has been posted covers it exactly if it has an entry and every pass that found room began
between two entries. -/
theorem mm_covered_iff (c2h : Bool) (req : Request) (id : ℕ)
    (hpos : ∀ sg ∈ req.sgl, 0 < sg.len) (htotal : sglLen req.sgl = req.count)
    {ds : List Descq} {s : Passes}
    (h : Run (Passes.step descqMmProcRequest) (MmReady c2h) (req.unserved id) ds s) :
    MmCovered c2h req s ↔
      req.sgl ≠ [] ∧ Run (Passes.step descqMmProcRequest)
        (fun s d => MmReady c2h s d ∧ BeginsWell s d) (req.unserved id) ds s := by
  constructor
  · intro hcov
    have hne : req.sgl ≠ [] := by
      intro hnil
      obtain ⟨hmoved, hcb⟩ := unmoved_of_nil hnil h
      have hcount : s.cb.offset = req.count := by
        rw [← htotal, hnil, hcb]
        rfl
      rw [hcov.moved.mpr hcount] at hmoved
      cases hmoved
    refine ⟨hne, ?_⟩
    rcases mmPasses_cases hpos htotal hne h with ⟨hrun, -⟩ | hbad
    · exact hrun
    · exact absurd hcov.host hbad
  · rintro ⟨hne, hrun⟩
    have hstart : MmInv c2h req (req.unserved id) := by
      rcases mmPasses_cases hpos htotal hne
        (Run.nil : Run _ (MmReady c2h) (req.unserved id) [] _) with ⟨-, hinv⟩ | hbad
      · exact hinv
      · exact absurd List.nil_prefix hbad
    have hinv : MmInv c2h req s := by
      apply hrun.invariant hstart
      exact fun s d hs hd => hs.step hpos htotal hd.1 hd.2
    exact hinv.covered htotal

/-! ## Requests served in two passes -/

/-- A memory-mapped queue of eight slots on which the next pass of `cb` finds `avail` free. -/
def ringFor (cb : SgtReqCb) (avail : ℕ) : Descq :=
  { conf := { rngsz := 8 }, avail := avail, workList := [cb] }

theorem ringFor_ready {s : Passes} (h : s.moved = false ∧ 0 ≤ s.rv) {avail : ℕ}
    (ha : avail < 8) : MmReady false s (ringFor s.cb avail) :=
  ⟨⟨⟨Nat.zero_lt_succ 7, ha, rfl⟩, h, List.mem_singleton.mpr rfl, List.nodup_singleton _⟩, rfl, rfl⟩

/-- A write of two entries, which take a descriptor each. -/
def pagesReq : Request where
  write := true
  count := 5000
  epAddr := 0
  dmaMapped := true
  fpDone := true
  sgl := [⟨0, 0, 4096, 8192⟩, ⟨4096, 0, 904, 16384⟩]

/-- It after a pass that found one slot free. -/
def pagesHalf : Passes :=
  (pagesReq.unserved 0).step descqMmProcRequest (ringFor (pagesReq.newCb 0) 1)

/-- The second pass begins with the second entry, and the request is covered. -/
theorem mm_covered_in_two :
    pagesHalf.cb.offset = 4096 ∧
      MmCovered false pagesReq (pagesHalf.step descqMmProcRequest (ringFor pagesHalf.cb 7)) := by
  have hfirst : MmReady false (pagesReq.unserved 0) (ringFor (pagesReq.newCb 0) 1) :=
    ringFor_ready (s := pagesReq.unserved 0) ⟨rfl, le_refl 0⟩ (by decide)
  have hsecond : MmReady false pagesHalf (ringFor pagesHalf.cb 7) :=
    ringFor_ready (by decide +kernel) (by decide)
  have hwell : BeginsWell pagesHalf (ringFor pagesHalf.cb 7) := .inr ⟨1, by decide +kernel⟩
  refine ⟨by decide +kernel, (mm_covered_iff false pagesReq 0 (by decide) (by decide)
    ((Run.nil.snoc hfirst).snoc hsecond)).mpr ⟨by decide, ?_⟩⟩
  exact (Run.nil.snoc ⟨hfirst, .inr ⟨0, rfl⟩⟩).snoc ⟨hsecond, hwell⟩

/-- A write of one entry that takes two descriptors. -/
def longReq : Request where
  write := true
  count := 2 ^ 28 + 9
  epAddr := 0
  dmaMapped := true
  fpDone := true
  sgl := [⟨0, 0, 2 ^ 28 + 9, 4096⟩]

/-- The request after a pass that found one slot free. -/
def longHalf : Passes := (longReq.unserved 0).step descqMmProcRequest (ringFor (longReq.newCb 0) 1)

/-- The descriptors of both passes: the second begins where the first did. -/
theorem longHalf_ranges :
    (longHalf.step descqMmProcRequest (ringFor longHalf.cb 7)).out.map (Desc.hostRange false)
      = [(4096, 2 ^ 28 - 1), (4096, 2 ^ 28 - 1), (4096 + (2 ^ 28 - 1), 10)] := by
  decide +kernel

/-- **A pass that begins inside an entry**: the first pass finds one slot and posts
`2 ^ 28 - 1` bytes, the second posts the same bytes again. -/
theorem mm_resumes_inside :
    ¬ ∀ (c2h : Bool) (req : Request) (id : ℕ), (∀ sg ∈ req.sgl, 0 < sg.len) →
      sglLen req.sgl = req.count → req.sgl ≠ [] → ∀ (ds : List Descq) (s : Passes),
      Run (Passes.step descqMmProcRequest) (MmReady c2h) (req.unserved id) ds s →
      MmCovered c2h req s := by
  intro h
  have hrun : Run (Passes.step descqMmProcRequest) (MmReady false) (longReq.unserved 0)
      ([ringFor (longReq.newCb 0) 1] ++ [ringFor longHalf.cb 7])
      (longHalf.step descqMmProcRequest (ringFor longHalf.cb 7)) :=
    Run.snoc (Run.one (ringFor_ready (s := longReq.unserved 0) ⟨rfl, le_refl 0⟩ (by decide)))
      (ringFor_ready (s := longHalf) (by decide +kernel) (by decide))
  have hpre := (h false longReq 0 (by decide) (by decide) (by decide) _ _ hrun).host
  rw [hostBytes, longHalf_ranges] at hpre
  simp only [spans_cons, ← List.append_assoc] at hpre
  rw [List.append_assoc] at hpre
  have hgot := head_of_prefix (by decide) hpre
  have hwant := getElem?_spans (m := 2 ^ 64) (l := longReq.sgl.map SwSg.range) (k := 0)
    (i := 2 ^ 28 - 1) rfl (by decide)
  rw [length_span] at hgot
  simp only [List.take_zero, total, List.map_nil, List.sum_nil, Nat.zero_add] at hwant
  have hsame := Option.some.inj (hgot.symm.trans hwant)
  exact absurd hsame (by decide)

end Qdma
