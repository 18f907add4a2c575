/-
# What a request function posts

The nested loops of the two request functions are folds over the list of pieces the
scatter list is cut into (`mmFillSgl_eq`, `stFillSglOf_eq`): a pass posts the first
`avail` pieces that are left.  `Posted` is the common effect of such a fold on the
queue, and `procSgtRequest_cases` says once and for all what the call
`qdma_descq_proc_sgt_request` can do.
-/
import Qdma.H2c

namespace Qdma

open RingIndex

/-! ## Cutting a scatter list into pieces -/

/-- What one descriptor carries; `last` marks pieces of the last scatter entry. -/
structure Piece where
  len : ℕ
  addr : ℕ
  last : Bool
  deriving DecidableEq

/-- The pieces of `tlen` bytes at `addr`, each of at most `max` bytes (`fuel ≥ tlen`). -/
def cut (max : ℕ) (last : Bool) : ℕ → ℕ → ℕ → List Piece
  | 0, _, _ => []
  | fuel + 1, tlen, addr =>
      if tlen = 0 then []
      else ⟨min tlen max, addr, last⟩ ::
        cut max last fuel (tlen - min tlen max) (u64 (addr + min tlen max))

/-- The pieces of one entry of a memory-mapped request: none if it is empty. -/
def mmPieces (sg : SwSg) (last : Bool) : List Piece :=
  cut qdmaDescBlenMax last sg.len sg.len sg.dmaAddr

/-- The pieces of one entry of an ST H2C request: an empty entry still takes one. -/
def stPieces (sg : SwSg) (last : Bool) : List Piece :=
  if sg.len = 0 then [⟨0, sg.dmaAddr, last⟩] else cut pageSize last sg.len sg.len sg.dmaAddr

/-- The pieces of one entry of an ST H2C request on a kernel with pages of `pg` bytes. -/
def stPiecesOf (pg : ℕ) (sg : SwSg) (last : Bool) : List Piece :=
  if sg.len = 0 then [⟨0, sg.dmaAddr, last⟩] else cut pg last sg.len sg.len sg.dmaAddr

/-- The pieces of a scatter list of an ST H2C request on such a kernel. -/
def stSglPiecesOf (pg : ℕ) : List SwSg → List Piece
  | [] => []
  | sg :: sgl => stPiecesOf pg sg sgl.isEmpty ++ stSglPiecesOf pg sgl

/-- The pieces of one entry, by the queue's mode. -/
def entryPieces (st : Bool) (sg : SwSg) (last : Bool) : List Piece :=
  if st then stPieces sg last else mmPieces sg last

/-- The pieces of a scatter list. -/
def sglPieces (st : Bool) : List SwSg → List Piece
  | [] => []
  | sg :: sgl => entryPieces st sg sgl.isEmpty ++ sglPieces st sgl

/-- The bytes a list of pieces carries. -/
def bytes (ps : List Piece) : ℕ := (ps.map Piece.len).sum

/-- The length a descriptor carries: the low bits of `flag_len`, or the field `len`. -/
def Desc.len (st : Bool) (s : Desc) : ℕ := if st then s.h2c.len else s.mm.flagLen % 2 ^ sDescFDv

@[simp] theorem cut_zero (max : ℕ) (last : Bool) (fuel addr : ℕ) :
    cut max last fuel 0 addr = [] := by
  cases fuel <;> simp [cut]

/-- The fuel does not matter once it covers the length. -/
theorem cut_fuel {max : ℕ} (hmax : 0 < max) (last : Bool) {m n tlen : ℕ} (addr : ℕ)
    (hm : tlen ≤ m) (hn : tlen ≤ n) : cut max last m tlen addr = cut max last n tlen addr := by
  induction m generalizing n tlen addr with
  | zero =>
      obtain rfl : tlen = 0 := by omega
      rw [cut_zero, cut_zero]
  | succ m ih =>
      cases n with
      | zero =>
          obtain rfl : tlen = 0 := by omega
          rw [cut_zero, cut_zero]
      | succ n =>
          rw [cut, cut]
          split_ifs with h
          · rfl
          · congr 1
            exact ih _ (by omega) (by omega)

theorem cut_len_le (max : ℕ) (last : Bool) (fuel tlen addr : ℕ) :
    ∀ p ∈ cut max last fuel tlen addr, p.len ≤ max := by
  induction fuel generalizing tlen addr with
  | zero => exact fun p hp => absurd hp List.not_mem_nil
  | succ fuel ih =>
      rw [cut]
      split_ifs
      · exact fun p hp => absurd hp List.not_mem_nil
      · intro p hp
        rcases List.mem_cons.mp hp with rfl | hp
        · exact min_le_right _ _
        · exact ih _ _ p hp

/-- A piece of a memory-mapped request fits the length bits of `flag_len`. -/
theorem mmPieces_len_lt (sgl : List SwSg) : ∀ p ∈ sglPieces false sgl, p.len < 2 ^ sDescFDv := by
  induction sgl with
  | nil => exact fun p hp => absurd hp List.not_mem_nil
  | cons sg sgl ih =>
      intro p hp
      rcases List.mem_append.mp hp with hp | hp
      · have hle := cut_len_le _ _ _ _ _ p hp
        have hmax : qdmaDescBlenMax < 2 ^ sDescFDv := by decide
        omega
      · exact ih p hp

/-- Flag bits do not touch the length. -/
theorem flag_mod {n bit : ℕ} (h : sDescFDv ≤ bit) : (n ||| 1 <<< bit) % 2 ^ sDescFDv
    = n % 2 ^ sDescFDv := by
  have hbit : (1 <<< bit) % 2 ^ sDescFDv = 0 := by
    rw [Nat.one_shiftLeft]
    exact Nat.mod_eq_zero_of_dvd (Nat.pow_dvd_pow 2 h)
  rw [Nat.or_mod_two_pow, hbit, Nat.or_zero]

/-! ## The loops are folds -/

theorem mmFillEntry_eq (id : ℕ) (last : Bool) (room fuel tlen addr : ℕ) (f : Fill)
    (h : tlen ≤ fuel) :
    mmFillEntry id room tlen addr f
      = ((cut qdmaDescBlenMax last fuel tlen addr).take room).foldl
          (fun f p => mmPut id f p.len p.addr) f := by
  induction room generalizing fuel tlen addr f with
  | zero => rfl
  | succ room ih =>
      rw [mmFillEntry]
      by_cases h0 : tlen = 0
      · rw [if_pos h0, h0, cut_zero]
        rfl
      · obtain ⟨fuel, rfl⟩ : ∃ n, fuel = n + 1 := ⟨fuel - 1, by omega⟩
        have hmax : 0 < qdmaDescBlenMax := by decide
        rw [if_neg h0, cut, if_neg h0, List.take_succ_cons, List.foldl_cons]
        exact ih fuel _ _ _ (by omega)

theorem stPutOf_eq (id : ℕ) (eop : Bool) (f : Fill) {len : ℕ} (addr : ℕ) (h : len < 2 ^ 16) :
    stPutOf id eop f len addr = stPut id eop f len addr := by
  unfold stPutOf stPut u16
  rw [Nat.mod_eq_of_lt h]

theorem stFillEntryOf_eq {pg : ℕ} (hpg : 0 < pg) (h16 : pg < 2 ^ 16) (id : ℕ) (last : Bool)
    (room tlen addr : ℕ) (f : Fill) :
    stFillEntryOf pg id last room tlen addr f
      = ((stPiecesOf pg ⟨0, 0, tlen, addr⟩ last).take room).foldl
          (fun f p => stPut id p.last f p.len p.addr) f := by
  induction room generalizing tlen addr f with
  | zero => rfl
  | succ room ih =>
      have hput := stPutOf_eq id last f addr
        (show min tlen pg < 2 ^ 16 from lt_of_le_of_lt (min_le_right _ _) h16)
      rw [stFillEntryOf]
      simp only [hput]
      by_cases h0 : tlen = 0
      · simp [h0, stPiecesOf]
      · obtain ⟨m, rfl⟩ : ∃ m, tlen = m + 1 := ⟨tlen - 1, by omega⟩
        have hcut : stPiecesOf pg ⟨0, 0, m + 1, addr⟩ last
            = ⟨min (m + 1) pg, addr, last⟩ ::
              cut pg last m (m + 1 - min (m + 1) pg) (u64 (addr + min (m + 1) pg)) := by
          rw [stPiecesOf, if_neg (by simp), cut, if_neg (by simp)]
        rw [hcut, List.take_succ_cons, List.foldl_cons]
        split_ifs with hend
        · rw [hend, cut_zero, List.take_nil, List.foldl_nil]
        · rw [ih, stPiecesOf, if_neg hend]
          rw [cut_fuel hpg last _ le_rfl (show m + 1 - min (m + 1) pg ≤ m by omega)]

/-- Every put counts one descriptor. -/
theorem descCnt_foldl (put : Fill → Piece → Fill)
    (hput : ∀ f p, (put f p).descCnt = f.descCnt + 1) (ps : List Piece) (f : Fill) :
    (ps.foldl put f).descCnt = f.descCnt + ps.length := by
  induction ps generalizing f with
  | nil => rfl
  | cons p ps ih =>
      rw [List.foldl_cons, ih, hput, List.length_cons]
      omega

/-- **The scatter loop of `descq_mm_proc_request` is a fold over the pieces that fit.** -/
theorem mmFillSgl_eq (id descMax : ℕ) (sgl : List SwSg) (off : ℕ) (f : Fill) :
    mmFillSgl id descMax sgl off f
      = ((sglPieces false sgl).take (descMax - f.descCnt)).foldl
          (fun f p => mmPut id f p.len p.addr) f := by
  induction sgl generalizing off f with
  | nil => simp [mmFillSgl, sglPieces]
  | cons sg sgl ih =>
      rw [mmFillSgl]
      split_ifs with h
      · simp only [skipOffset_eq]
        rw [ih, mmFillEntry_eq id sgl.isEmpty _ sg.len _ _ _ le_rfl, sglPieces,
          List.take_append, List.foldl_append, descCnt_foldl _ (fun _ _ => rfl),
          List.length_take]
        have hroom : descMax - (f.descCnt
            + min (descMax - f.descCnt) (mmPieces sg sgl.isEmpty).length)
            = descMax - f.descCnt - (entryPieces false sg sgl.isEmpty).length := by
          simp only [entryPieces, Bool.false_eq_true, if_false]
          omega
        rw [mmPieces] at hroom
        rw [hroom]
        rfl
      · rw [show descMax - f.descCnt = 0 from by omega]
        rfl

/-- **The scatter loop of `descq_proc_st_h2c_request` is a fold over the pieces that fit**, on
any kernel whose pages the field `len` can hold. -/
theorem stFillSglOf_eq {pg : ℕ} (hpg : 0 < pg) (h16 : pg < 2 ^ 16) (id descMax : ℕ)
    (sgl : List SwSg) (off : ℕ) (f : Fill) :
    stFillSglOf pg id descMax sgl off f
      = ((stSglPiecesOf pg sgl).take (descMax - f.descCnt)).foldl
          (fun f p => stPut id p.last f p.len p.addr) f := by
  induction sgl generalizing off f with
  | nil => simp [stFillSglOf, stSglPiecesOf]
  | cons sg sgl ih =>
      rw [stFillSglOf]
      split_ifs with h
      · simp only [skipOffset_eq]
        have hsame : stPiecesOf pg ⟨0, 0, sg.len, sg.dmaAddr⟩ sgl.isEmpty
            = stPiecesOf pg sg sgl.isEmpty := rfl
        rw [ih, stFillEntryOf_eq hpg h16, stSglPiecesOf, List.take_append, List.foldl_append,
          descCnt_foldl _ (fun _ _ => rfl), List.length_take, hsame]
        have hroom : descMax - (f.descCnt
            + min (descMax - f.descCnt) (stPiecesOf pg sg sgl.isEmpty).length)
            = descMax - f.descCnt - (stPiecesOf pg sg sgl.isEmpty).length := by
          omega
        rw [hroom]
      · rw [show descMax - f.descCnt = 0 from by omega]
        rfl

/-- The driver's own pages are one case. -/
theorem stFillEntryOf_pageSize (id : ℕ) (last : Bool) (room tlen addr : ℕ) (f : Fill) :
    stFillEntryOf pageSize id last room tlen addr f = stFillEntry id last room tlen addr f := by
  induction room generalizing tlen addr f with
  | zero => rfl
  | succ room ih =>
      have h16 : pageSize < 2 ^ 16 := by decide
      have hput := stPutOf_eq id last f addr
        (show min tlen pageSize < 2 ^ 16 from lt_of_le_of_lt (min_le_right _ _) h16)
      rw [stFillEntryOf, stFillEntry]
      simp only [hput, ih]

theorem stFillSglOf_pageSize (id descMax : ℕ) (sgl : List SwSg) (off : ℕ) (f : Fill) :
    stFillSglOf pageSize id descMax sgl off f = stFillSgl id descMax sgl off f := by
  induction sgl generalizing off f with
  | nil => rfl
  | cons sg sgl ih =>
      rw [stFillSglOf, stFillSgl]
      simp only [stFillEntryOf_pageSize, ih]

theorem stSglPiecesOf_pageSize (sgl : List SwSg) :
    stSglPiecesOf pageSize sgl = sglPieces true sgl := by
  induction sgl with
  | nil => rfl
  | cons sg sgl ih =>
      rw [stSglPiecesOf, sglPieces, ih]
      rfl

/-- `descq_proc_st_h2c_request` on the driver's own pages. -/
theorem descqProcStH2cRequestOf_pageSize (d : Descq) (cb : SgtReqCb) :
    descqProcStH2cRequestOf pageSize d cb = descqProcStH2cRequest d cb := by
  unfold descqProcStH2cRequestOf descqProcStH2cRequest
  simp only [stFillSglOf_pageSize]

/-! ## The folds rewrite consecutive slots -/

/-- The queue with another ring content, producer index and doorbell state. -/
def Descq.withRing (d : Descq) (slot : ℕ → Desc) (pidx : ℕ) (regs : Regs) : Descq :=
  { d with desc := { d.desc with slot := slot }, pidx := pidx, regs := regs }

/-- One put rewrites one slot. -/
theorem putDesc_eq {d : Descq} (hp : d.pidx < d.conf.rngsz) (w : Desc → Desc) :
    d.putDesc (w (d.desc.slot d.pidx))
      = d.withRing (fill d.conf.rngsz d.desc.slot d.pidx [w]) (adv d.conf.rngsz d.pidx 1)
          d.regs := by
  unfold Descq.putDesc
  rw [adv_one hp]
  rfl

/-- The bytes posted so far, as the loops count them. -/
theorem dataCnt_foldl (put : Fill → Piece → Fill)
    (hput : ∀ f p, (put f p).dataCnt = u32 (f.dataCnt + p.len)) (ps : List Piece) (f : Fill) :
    u32 (ps.foldl put f).dataCnt = u32 (f.dataCnt + bytes ps) := by
  induction ps generalizing f with
  | nil => rfl
  | cons p ps ih =>
      rw [List.foldl_cons, ih, hput, bytes, bytes, List.map_cons, List.sum_cons]
      simp only [u32]
      omega

/-- What the memory-mapped loop makes of a slot it puts the piece `p` in. -/
def MmWrite (id : ℕ) (w : Desc → Desc) (p : Piece) : Prop :=
  ∀ s, (w s).owner = some id ∧ (w s).mm.flagLen = p.len ||| 1 <<< sDescFDv

/-- The memory-mapped fold rewrites one slot for each piece and names the request in it;
`desc_end` is the last of them. -/
theorem mmFold_spec (id : ℕ) (ps : List Piece) (f : Fill) (hp : f.d.pidx < f.d.conf.rngsz) :
    ∃ ws : List (Desc → Desc), List.Forall₂ (MmWrite id) ws ps ∧
      (ps.foldl (fun f p => mmPut id f p.len p.addr) f).d
        = f.d.withRing (fill f.d.conf.rngsz f.d.desc.slot f.d.pidx ws)
            (adv f.d.conf.rngsz f.d.pidx ps.length) f.d.regs ∧
      (ps.foldl (fun f p => mmPut id f p.len p.addr) f).descEnd
        = if ps = [] then f.descEnd
          else some (adv f.d.conf.rngsz f.d.pidx (ps.length - 1)) := by
  induction ps generalizing f with
  | nil =>
      refine ⟨[], .nil, ?_, rfl⟩
      rw [List.length_nil, adv_zero hp]
      rfl
  | cons p ps ih =>
      have hp1 : adv f.d.conf.rngsz f.d.pidx 1 < f.d.conf.rngsz := adv_lt (by omega)
      -- one piece is one write to the slot of the index
      obtain ⟨w, hw, hput⟩ : ∃ w : Desc → Desc, MmWrite id w p ∧
          (mmPut id f p.len p.addr).d
            = f.d.withRing (fill f.d.conf.rngsz f.d.desc.slot f.d.pidx [w])
                (adv f.d.conf.rngsz f.d.pidx 1) f.d.regs := by
        refine ⟨fun s => { s with
          mm := (((mmPut id f p.len p.addr).d.desc.slot f.d.pidx).mm), owner := some id },
          fun _ => ⟨rfl, ?_⟩, ?_⟩
        · simp only [mmPut, Descq.putDesc, Function.update_self]
          split_ifs <;> rfl
        · rw [← putDesc_eq hp]
          simp [mmPut, Descq.putDesc]
      obtain ⟨ws, hown, hd, hend⟩ := ih (mmPut id f p.len p.addr) (by
        rw [hput]
        exact hp1)
      rw [hput] at hd hend
      refine ⟨w :: ws, .cons hw hown, ?_, ?_⟩
      · rw [List.foldl_cons, hd, List.length_cons, Nat.add_comm, ← adv_adv]
        rfl
      · rw [List.foldl_cons, hend, if_neg (List.cons_ne_nil _ _)]
        -- the end is the slot of the last piece
        cases ps with
        | nil =>
            rw [if_pos rfl, List.length_singleton, Nat.sub_self, adv_zero hp]
            rfl
        | cons q ps =>
            rw [if_neg (List.cons_ne_nil _ _)]
            show some (adv f.d.conf.rngsz (adv f.d.conf.rngsz f.d.pidx 1) _) = _
            rw [adv_adv]
            congr 2
            simp only [List.length_cons]
            omega

/-- What the ST H2C loop makes of a slot it puts the piece `p` in. -/
def stWrite (id : ℕ) (p : Piece) (slot : Desc) : Desc :=
  { slot with
    h2c :=
      { srcAddr := p.addr
        len := p.len
        pldLen := p.len
        cdhFlags := slot.h2c.cdhFlags ||| sH2cDescFZeroCdh
        flags := if p.last then slot.h2c.flags ||| sH2cDescFEop else slot.h2c.flags }
    owner := some id }

/-- The doorbell state after the slots up to `pidx` were handed over. -/
def Regs.ring (r : Regs) (n : ℕ) (slot : ℕ → Desc) (pidx : ℕ) : Regs :=
  { r with pidx := pidx, handed := r.handed ++ stretch n slot r.pidx pidx }

theorem pidxUpdate_eq (d : Descq) (pidx : ℕ) :
    d.pidxUpdate pidx
      = d.withRing d.desc.slot d.pidx (d.regs.ring d.conf.rngsz d.desc.slot pidx) := rfl

/-- Ringing for a position already rung for changes nothing. -/
theorem regs_ring_self (r : Regs) (n : ℕ) (slot : ℕ → Desc) : r.ring n slot r.pidx = r := by
  unfold Regs.ring
  rw [stretch_self, List.append_nil]

/-- Ringing for one slot and later for the slots behind it is ringing once. -/
theorem regs_ring_ring {n m : ℕ} (r : Regs) (slot : ℕ → Desc) (ws : List (Desc → Desc))
    (hp : r.pidx < n) (hlen : 1 + ws.length < n) (hm : ws.length = m) :
    (r.ring n slot (adv n r.pidx 1)).ring n (fill n slot (adv n r.pidx 1) ws)
        (adv n (adv n r.pidx 1) m)
      = r.ring n (fill n slot (adv n r.pidx 1) ws) (adv n (adv n r.pidx 1) m) := by
  have hp1 : adv n r.pidx 1 < n := adv_lt (by omega)
  have hd1 : dist n r.pidx (adv n r.pidx 1) = 1 := dist_adv hp (by omega)
  have hsame : slot r.pidx = fill n slot (adv n r.pidx 1) ws r.pidx :=
    (fill_behind slot hp ws (by omega)).symm
  unfold Regs.ring
  simp only [List.append_assoc]
  rw [stretch_one slot hp (by omega), hsame, ← stretch_one _ hp (by omega),
    ← stretch_adv_right _ hp hp1 (by omega)]

/-- The ST H2C fold rewrites one slot for each piece and rings for each. -/
theorem stFold_spec (id : ℕ) (ps : List Piece) (f : Fill) (hp : f.d.pidx < f.d.conf.rngsz)
    (hlen : ps.length < f.d.conf.rngsz) (hreg : f.d.regs.pidx = f.d.pidx) :
    (ps.foldl (fun f p => stPut id p.last f p.len p.addr) f).d
      = f.d.withRing
          (fill f.d.conf.rngsz f.d.desc.slot f.d.pidx (ps.map (stWrite id)))
          (adv f.d.conf.rngsz f.d.pidx ps.length)
          (f.d.regs.ring f.d.conf.rngsz
            (fill f.d.conf.rngsz f.d.desc.slot f.d.pidx (ps.map (stWrite id)))
            (adv f.d.conf.rngsz f.d.pidx ps.length)) := by
  induction ps generalizing f with
  | nil =>
      rw [List.length_nil, adv_zero hp, ← hreg, regs_ring_self, hreg]
      rfl
  | cons p ps ih =>
      rw [List.length_cons] at hlen
      have hp1 : adv f.d.conf.rngsz f.d.pidx 1 < f.d.conf.rngsz := adv_lt (by omega)
      have hput : (stPut id p.last f p.len p.addr).d
          = f.d.withRing (fill f.d.conf.rngsz f.d.desc.slot f.d.pidx [stWrite id p])
              (adv f.d.conf.rngsz f.d.pidx 1)
              (f.d.regs.ring f.d.conf.rngsz
                (fill f.d.conf.rngsz f.d.desc.slot f.d.pidx [stWrite id p])
                (adv f.d.conf.rngsz f.d.pidx 1)) := by
        show (f.d.putDesc (stWrite id p (f.d.desc.slot f.d.pidx))).pidxUpdate
          (f.d.putDesc (stWrite id p (f.d.desc.slot f.d.pidx))).pidx = _
        rw [putDesc_eq hp]
        rfl
      have hrest := ih (stPut id p.last f p.len p.addr)
      rw [hput] at hrest
      rw [List.foldl_cons, hrest hp1 (by show ps.length < f.d.conf.rngsz; omega) rfl,
        List.length_cons, Nat.add_comm ps.length, ← adv_adv, ← hreg]
      exact congrArg _ (regs_ring_ring f.d.regs _ _ (by rw [hreg]; exact hp)
        (by rw [List.length_map]; omega) (by rw [List.length_map]))

/-! ## The effect of one call -/

/-- The flag word an ST H2C descriptor ends up with: both flags are OR-ed into what the
slot held. -/
def postedFlags (sop eop : Bool) (old : ℕ) : ℕ :=
  (old ||| if sop then sH2cDescFSop else 0) ||| if eop then sH2cDescFEop else 0

/-- `d'` is `d` after the pieces `ps` of the request `cb` were put into its next slots and
handed to the device. -/
structure Posted (d d' : Descq) (cb : SgtReqCb) (ps : List Piece) : Prop where
  frame : d' = d.withRing d'.desc.slot d'.pidx
    (d.regs.ring d.conf.rngsz d'.desc.slot d'.pidx)
  pidx : d'.pidx = adv d.conf.rngsz d.pidx ps.length
  old : ∀ j, ps.length ≤ j → 0 < j → j < d.conf.rngsz →
    d'.desc.slot (adv d.conf.rngsz d.pidx j) = d.desc.slot (adv d.conf.rngsz d.pidx j)
  owner : ∀ j < ps.length, (d'.desc.slot (adv d.conf.rngsz d.pidx j)).owner = some cb.id
  flags : d.conf.st = true → ∀ j (h : j < ps.length),
    (d'.desc.slot (adv d.conf.rngsz d.pidx j)).h2c.flags
      = postedFlags (j = 0 ∧ cb.offset = 0) ps[j].last
          (d.desc.slot (adv d.conf.rngsz d.pidx j)).h2c.flags
  len : ∀ j (h : j < ps.length),
    (d'.desc.slot (adv d.conf.rngsz d.pidx j)).len d.conf.st = ps[j].len

theorem chargeRequest_congr (d : Descq) (cb : SgtReqCb) (n : ℕ) {a b : ℕ}
    (h : u32 a = u32 b) : chargeRequest d cb n a = chargeRequest d cb n b := by
  have hoff : u32 (cb.offset + a) = u32 (cb.offset + b) := by
    simp only [u32] at h ⊢
    omega
  unfold chargeRequest SgtReqCb.charge
  rw [hoff]

/-- Ringing the doorbell and charging the request commute. -/
theorem pidxUpdate_chargeRequest (d : Descq) (cb : SgtReqCb) (a b pidx : ℕ) :
    (chargeRequest d cb a b).pidxUpdate pidx = chargeRequest (d.pidxUpdate pidx) cb a b := by
  unfold chargeRequest
  by_cases h : (cb.charge a b).offset = (cb.charge a b).req.count
  · simp only [h, if_true]
    rfl
  · simp only [h, if_false]
    rfl

theorem chargeRequest_pidx (d : Descq) (cb : SgtReqCb) (a b : ℕ) :
    (chargeRequest d cb a b).pidx = d.pidx := by
  unfold chargeRequest
  simp only
  split_ifs <;> rfl

theorem chargeRequest_conf (d : Descq) (cb : SgtReqCb) (a b : ℕ) :
    (chargeRequest d cb a b).conf = d.conf := by
  unfold chargeRequest
  simp only
  split_ifs <;> rfl

/-- The slots after `mm_set_flag` at `i`. -/
def mmFlagged (slot : ℕ → Desc) (i bit : ℕ) : ℕ → Desc :=
  Function.update slot i
    { slot i with mm := { (slot i).mm with flagLen := (slot i).mm.flagLen ||| 1 <<< bit } }

theorem mmSetFlag_withRing (d : Descq) (slot : ℕ → Desc) (pidx i bit : ℕ) (regs : Regs) :
    (d.withRing slot pidx regs).mmSetFlag i bit
      = d.withRing (mmFlagged slot i bit) pidx regs := rfl

/-- Setting a flag of a written slot leaves a memory-mapped post a post. -/
theorem Posted.mmFlagged {d : Descq} {slot : ℕ → Desc} {pidx : ℕ} {cb : SgtReqCb}
    {ps : List Piece} (hp : d.pidx < d.conf.rngsz) (hlen : ps.length < d.conf.rngsz)
    (hst : d.conf.st = false) {k : ℕ} (hk : k < ps.length) {bit : ℕ} (hbit : sDescFDv ≤ bit)
    (h : Posted d (d.withRing slot pidx (d.regs.ring d.conf.rngsz slot pidx)) cb ps) :
    Posted d
      (d.withRing (mmFlagged slot (adv d.conf.rngsz d.pidx k) bit) pidx
        (d.regs.ring d.conf.rngsz (mmFlagged slot (adv d.conf.rngsz d.pidx k) bit) pidx))
      cb ps := by
  have hne : ∀ j < d.conf.rngsz, j ≠ k →
      Qdma.mmFlagged slot (adv d.conf.rngsz d.pidx k) bit (adv d.conf.rngsz d.pidx j)
        = slot (adv d.conf.rngsz d.pidx j) := by
    intro j hj hjk
    exact Function.update_of_ne (fun heq => hjk (adv_inj hp hj (by omega) heq)) _ _
  refine ⟨rfl, h.pidx, ?_, ?_, ?_, ?_⟩
  · intro j h1 h2 h3
    exact (hne j h3 (by omega)).trans (h.old j h1 h2 h3)
  · intro j hj
    by_cases hjk : j = k
    · subst hjk
      show (Function.update slot (adv d.conf.rngsz d.pidx j) _
        (adv d.conf.rngsz d.pidx j)).owner = _
      rw [Function.update_self]
      exact h.owner j hj
    · exact (congrArg Desc.owner (hne j (by omega) hjk)).trans (h.owner j hj)
  · intro h1
    rw [hst] at h1
    cases h1
  · intro j hj
    by_cases hjk : j = k
    · subst hjk
      refine Eq.trans ?_ (h.len j hj)
      show (Function.update slot (adv d.conf.rngsz d.pidx j) _
        (adv d.conf.rngsz d.pidx j)).len d.conf.st = _
      rw [Function.update_self, hst]
      exact flag_mod hbit
    · exact (congrArg (Desc.len d.conf.st) (hne j (by omega) hjk)).trans (h.len j hj)

/-- What `qdma_descq_proc_sgt_request` can return on a queue that is not ST C2H. -/
inductive ProcOutcome (d : Descq) (cb : SgtReqCb) : Descq × ℤ → Prop
  | full (h : d.avail = 0) : ProcOutcome d cb (d, 0)
  | failed {rv : ℤ} (h : 0 < d.avail) (hrv : rv < 0)
      (why : resumeAt cb = none ∨ d.conf.st = false ∧
        ∃ i off, resumeAt cb = some (i, off) ∧ sglPieces false (cb.req.sgl.drop i) = []) :
      ProcOutcome d cb (d, rv)
  | posted {i off : ℕ} {d' : Descq} {ps : List Piece} (h : 0 < d.avail)
      (hr : resumeAt cb = some (i, off))
      (hps : ps = (sglPieces d.conf.st (cb.req.sgl.drop i)).take d.avail)
      (hp : Posted d d' cb ps) :
      ProcOutcome d cb (chargeRequest d' cb ps.length (bytes ps), 0)

theorem descqMmProcRequest_outcome {d : Descq} (cb : SgtReqCb) (hst : d.conf.st = false)
    (hp : d.pidx < d.conf.rngsz) (ha : d.avail < d.conf.rngsz) :
    ProcOutcome d cb (descqMmProcRequest d cb) := by
  unfold descqMmProcRequest
  simp only
  split_ifs with h0
  · exact .full h0
  cases hr : resumeAt cb with
  | none => exact .failed (by omega) (by decide) (.inl hr)
  | some p =>
      obtain ⟨i, off⟩ := p
      set ps := (sglPieces false (cb.req.sgl.drop i)).take d.avail with hps
      have hlen : ps.length < d.conf.rngsz := by
        rw [hps, List.length_take]
        omega
      obtain ⟨ws, hown, hd, hend⟩ :=
        mmFold_spec cb.id ps { d := d, epAddr := u64 (cb.req.epAddr + cb.offset) } hp
      have hwl : ws.length = ps.length := hown.length_eq
      have hcnt := descCnt_foldl (fun f p => mmPut cb.id f p.len p.addr)
        (fun _ _ => rfl) ps { d := d, epAddr := u64 (cb.req.epAddr + cb.offset) }
      have hdata := dataCnt_foldl (fun f p => mmPut cb.id f p.len p.addr)
        (fun _ _ => rfl) ps { d := d, epAddr := u64 (cb.req.epAddr + cb.offset) }
      simp only [mmFillSgl_eq, Nat.sub_zero, ← hps, hd, hend, hcnt, Nat.zero_add]
      -- with room in the ring, no piece means that no entry is left
      by_cases hnil : ps = []
      · have hpieces : sglPieces false (cb.req.sgl.drop i) = [] := by
          have : 0 < d.avail := by omega
          rcases List.take_eq_nil_iff.mp (hps ▸ hnil) with h | h
          · omega
          · exact h
        have hsame : d.withRing (fill d.conf.rngsz d.desc.slot d.pidx ws)
            (adv d.conf.rngsz d.pidx ps.length) d.regs = d := by
          rw [hnil] at hwl
          rw [List.length_eq_zero_iff.mp hwl, hnil, List.length_nil, adv_zero hp]
          rfl
        rw [if_pos hnil, hsame]
        exact .failed (by omega) (by decide) (.inr ⟨hst, i, off, hr, hpieces⟩)
      · rw [if_neg hnil]
        have hpos : 0 < ps.length := List.length_pos_iff.mpr hnil
        have hbase : Posted d (d.withRing (fill d.conf.rngsz d.desc.slot d.pidx ws)
            (adv d.conf.rngsz d.pidx ps.length)
            (d.regs.ring d.conf.rngsz (fill d.conf.rngsz d.desc.slot d.pidx ws)
              (adv d.conf.rngsz d.pidx ps.length))) cb ps := by
          have hwrite : ∀ j (h : j < ps.length), MmWrite cb.id (ws[j]) (ps[j]) :=
            fun j h => hown.get (by omega) h
          refine ⟨rfl, rfl, ?_, ?_, ?_, ?_⟩
          · intro j h1 _ h3
            exact fill_old _ hp ws (by omega) h3
          · intro j hj
            show (fill d.conf.rngsz d.desc.slot d.pidx ws _).owner = _
            rw [fill_new _ hp ws (by omega) (by omega)]
            exact (hwrite j hj _).1
          · intro h1
            rw [hst] at h1
            cases h1
          · intro j hj
            have hsub : ∀ p ∈ ps, p ∈ sglPieces false (cb.req.sgl.drop i) :=
              fun p hp => List.mem_of_mem_take (hps ▸ hp)
            show Desc.len d.conf.st (fill d.conf.rngsz d.desc.slot d.pidx ws _) = _
            rw [fill_new _ hp ws (by omega) (by omega), hst]
            show (ws[j] _).mm.flagLen % _ = _
            rw [(hwrite j hj _).2, flag_mod le_rfl]
            exact Nat.mod_eq_of_lt (mmPieces_len_lt _ _ (hsub _ (List.getElem_mem hj)))
        -- the last slot gets its end of packet, the first one its start
        have heop : sDescFDv ≤ sDescFEop := by decide
        have hsop : sDescFDv ≤ sDescFSop := by decide
        have hpost := (hbase.mmFlagged hp hlen hst (show ps.length - 1 < ps.length by omega)
          heop).mmFlagged hp hlen hst hpos hsop
        rw [adv_zero hp] at hpost
        simp only [mmSetFlag_withRing, descqC2hPidxUpdate, descqH2cPidxUpdate, ite_self,
          chargeRequest_pidx]
        rw [chargeRequest_congr _ _ _ hdata, pidxUpdate_chargeRequest, Nat.zero_add]
        exact .posted (by omega) hr (by rw [hst]) hpost

/-- The ST H2C slots `d'` has for the pieces `ps` carry their addresses and lengths. -/
def StCarried (d d' : Descq) (ps : List Piece) : Prop :=
  ∀ j (h : j < ps.length), ((d'.desc.slot (adv d.conf.rngsz d.pidx j)).h2c.srcAddr = ps[j].addr ∧
    (d'.desc.slot (adv d.conf.rngsz d.pidx j)).h2c.len = ps[j].len ∧
    (d'.desc.slot (adv d.conf.rngsz d.pidx j)).h2c.pldLen = ps[j].len)

/-- **A call of `descq_proc_st_h2c_request` that finds room and an entry to go on with.** -/
theorem stRequest_posted {pg : ℕ} (hpg : 0 < pg) (h16 : pg < 2 ^ 16) {d : Descq} {cb : SgtReqCb}
    (hst : d.conf.st = true) (hp : d.pidx < d.conf.rngsz) (ha : d.avail < d.conf.rngsz)
    (hreg : d.regs.pidx = d.pidx) (h0 : d.avail ≠ 0) {i off : ℕ}
    (hr : resumeAt cb = some (i, off)) {ps : List Piece}
    (hps : ps = (stSglPiecesOf pg (cb.req.sgl.drop i)).take d.avail) :
    ∃ d', descqProcStH2cRequestOf pg d cb = (chargeRequest d' cb ps.length (bytes ps), 0) ∧
      Posted d d' cb ps ∧ StCarried d d' ps := by
  have hlen : ps.length < d.conf.rngsz := by
    rw [hps, List.length_take]
    omega
  -- the queue the loop starts from: the first slot may carry the SOP flag already
  obtain ⟨slot, hslot, hother, hself⟩ : ∃ slot : ℕ → Desc,
      (if cb.offset ≠ 0 then d else d.h2cSetFlag d.pidx sH2cDescFSop)
        = d.withRing slot d.pidx d.regs ∧
      (∀ i ≠ d.pidx, slot i = d.desc.slot i) ∧
      (slot d.pidx).h2c.flags = (d.desc.slot d.pidx).h2c.flags
        ||| (if cb.offset = 0 then sH2cDescFSop else 0) := by
    by_cases hoff : cb.offset = 0
    · refine ⟨(d.h2cSetFlag d.pidx sH2cDescFSop).desc.slot, ?_, ?_, ?_⟩
      · rw [if_neg (not_not.mpr hoff)]
        rfl
      · intro i hi
        exact Function.update_of_ne hi _ _
      · simp [Descq.h2cSetFlag, hoff]
    · exact ⟨d.desc.slot, by rw [if_pos hoff]; rfl, fun _ _ => rfl, by simp [hoff]⟩
  have hfold := stFold_spec cb.id ps { d := d.withRing slot d.pidx d.regs } hp hlen hreg
  have hcnt := descCnt_foldl (fun f p => stPut cb.id p.last f p.len p.addr)
    (fun _ _ => rfl) ps { d := d.withRing slot d.pidx d.regs }
  have hdata := dataCnt_foldl (fun f p => stPut cb.id p.last f p.len p.addr)
    (fun _ _ => rfl) ps { d := d.withRing slot d.pidx d.regs }
  -- what the loop leaves in the slot of a piece
  have hnew : ∀ j (h : j < ps.length),
      fill d.conf.rngsz slot d.pidx (ps.map (stWrite cb.id)) (adv d.conf.rngsz d.pidx j)
        = stWrite cb.id ps[j] (slot (adv d.conf.rngsz d.pidx j)) := by
    intro j hj
    rw [fill_new slot hp _ (by rw [List.length_map]; omega) (by rw [List.length_map]; omega),
      List.getElem_map]
  refine ⟨d.withRing (fill d.conf.rngsz slot d.pidx (ps.map (stWrite cb.id)))
    (adv d.conf.rngsz d.pidx ps.length) (d.regs.ring d.conf.rngsz
      (fill d.conf.rngsz slot d.pidx (ps.map (stWrite cb.id)))
      (adv d.conf.rngsz d.pidx ps.length)), ?_, ⟨rfl, rfl, ?_, ?_, ?_, ?_⟩, ?_⟩
  · unfold descqProcStH2cRequestOf
    simp only [if_neg h0, hr, hslot, stFillSglOf_eq hpg h16, Nat.sub_zero, ← hps, hfold, hcnt,
      Nat.zero_add]
    rw [chargeRequest_congr _ _ _ hdata, Nat.zero_add]
    rfl
  · intro j h1 h2 h3
    refine (fill_old slot hp _ (by rw [List.length_map]; omega) h3).trans (hother _ ?_)
    intro h
    have := adv_inj hp h3 (show 0 < d.conf.rngsz by omega) (h.trans (adv_zero hp).symm)
    omega
  · intro j hj
    exact congrArg Desc.owner (hnew j hj)
  · intro _ j hj
    refine (congrArg (fun x => x.h2c.flags) (hnew j hj)).trans ?_
    have hold : (slot (adv d.conf.rngsz d.pidx j)).h2c.flags
        = (d.desc.slot (adv d.conf.rngsz d.pidx j)).h2c.flags
          ||| (if j = 0 ∧ cb.offset = 0 then sH2cDescFSop else 0) := by
      by_cases hj0 : j = 0
      · subst hj0
        rw [adv_zero hp, hself]
        simp
      · rw [hother _ (fun h => hj0 (adv_inj hp (by omega) (by omega)
          (h.trans (adv_zero hp).symm)))]
        simp [hj0]
    simp only [stWrite, hold, postedFlags, decide_eq_true_eq]
    split_ifs <;> simp
  · intro j hj
    refine (congrArg (Desc.len d.conf.st) (hnew j hj)).trans ?_
    rw [hst]
    rfl
  · intro j hj
    exact ⟨congrArg (fun x => x.h2c.srcAddr) (hnew j hj),
      congrArg (fun x => x.h2c.len) (hnew j hj), congrArg (fun x => x.h2c.pldLen) (hnew j hj)⟩

theorem descqProcStH2cRequest_outcome {d : Descq} (cb : SgtReqCb) (hst : d.conf.st = true)
    (hp : d.pidx < d.conf.rngsz) (ha : d.avail < d.conf.rngsz)
    (hreg : d.regs.pidx = d.pidx) : ProcOutcome d cb (descqProcStH2cRequest d cb) := by
  by_cases h0 : d.avail = 0
  · have hfull : descqProcStH2cRequest d cb = (d, 0) := by
      unfold descqProcStH2cRequest
      rw [if_pos h0]
    rw [hfull]
    exact .full h0
  cases hr : resumeAt cb with
  | none =>
      have hnone : descqProcStH2cRequest d cb = (d, einval) := by
        unfold descqProcStH2cRequest
        simp only [if_neg h0, hr]
      rw [hnone]
      exact .failed (by omega) (by decide) (.inl hr)
  | some p =>
      obtain ⟨i, off⟩ := p
      have hpg : 0 < pageSize := by decide
      obtain ⟨d', hrun, hpost, -⟩ := stRequest_posted hpg (by decide) hst hp ha hreg h0 hr rfl
      rw [← descqProcStH2cRequestOf_pageSize, hrun]
      exact .posted (by omega) hr (by rw [hst, stSglPiecesOf_pageSize]) hpost

/-- **Everything one call of `qdma_descq_proc_sgt_request` can do.** -/
theorem procSgtRequest_outcome {d : Descq} (cb : SgtReqCb)
    (hkind : (d.conf.st && d.conf.c2h) = false) (hp : d.pidx < d.conf.rngsz)
    (ha : d.avail < d.conf.rngsz) (hreg : d.regs.pidx = d.pidx) :
    ProcOutcome d cb (qdmaDescqProcSgtRequest d cb) := by
  unfold qdmaDescqProcSgtRequest
  cases hst : d.conf.st with
  | false => exact descqMmProcRequest_outcome cb hst hp ha
  | true =>
      rw [hst, Bool.true_and] at hkind
      rw [hkind]
      exact descqProcStH2cRequest_outcome cb hst hp ha hreg

end Qdma
