/-
# Reading and writing a device file

`cdev_gen_read_write` maps the user's buffer and hands it over in a request.  The scatter list has
an entry for each page that is mapped, and `sgcnt` has 16 bits.

`transfer_conveys_iff`: the request conveys the whole buffer just when it has fewer than 2^16
pages.  It is then one as the passes of the library ask for (`cdevReq_userBuf`).
-/
import Qdma.Cdev
import Qdma.UserMap

namespace Qdma

open PageCut

/-! ## The transfer -/

/-- `struct qdma_request` as `cdev_gen_read_write` fills it in; `sgcnt` is an `unsigned short` and
`count` an `unsigned int`. -/
structure CdevReq where
  sgcnt : ℕ
  sgl : List SgEntry
  write : Bool
  dmaMapped : Bool := false
  uddLen : ℕ := 0
  epAddr : ℕ
  count : ℕ
  timeoutMs : ℕ := 10 * 1000
  fpDone : Bool := false

/-- The `struct qdma_cdev` of an open file: whether its locks are free, and what `fp_rw` returns for
a queue and a request. -/
structure CdevFile extends QdmaCdev where
  c2hFree : Bool := true
  h2cFree : Bool := true
  fpRw : Option (ℕ → CdevReq → ℤ)

/-- What a call comes to: its value, the request that is handed over, with its queue, and the
log. -/
structure RwResult where
  rv : ℤ
  submitted : Option (ℕ × CdevReq) := none
  log : List PinOp := []

/-- `cdev_gen_read_write`. -/
def cdevGenReadWrite (k : PageShift) (x : CdevFile) (e : PinEnv) (buf count pos : ℕ)
    (write : Bool) : RwResult :=
  match x.fpRw with
  | none => { rv := einval }
  | some fpRw =>
      if !(if write then x.h2cFree else x.c2hFree) then { rv := einval }
      else
        let (iocb, rv) := mapUserBufToSgl k { buf := buf, len := count } e write
        if rv < 0 then { rv := rv, log := iocb.log }
        else
          let qhndl := if write then x.h2cQhndl else x.c2hQhndl
          let req : CdevReq :=
            { sgcnt := u16 iocb.pagesNr
              sgl := iocb.sgl.getD []
              write := write
              epAddr := u64 pos
              count := u32 count }
          let iocb := iocbRelease (unmapUserBuf iocb write)
          { rv := fpRw qhndl req, submitted := some (qhndl, req), log := iocb.log }

/-- A call that comes to the mapping. -/
def CdevFile.Ready (x : CdevFile) (write : Bool) : Prop :=
  x.fpRw.isSome = true ∧ (if write then x.h2cFree else x.c2hFree) = true

/-- The request of a buffer that is mapped. -/
def cdevReq (k : PageShift) (e : PinEnv) (buf count pos : ℕ) (write : Bool) : CdevReq where
  sgcnt := u16 (userPagesNr k buf count)
  sgl := builtSgl k (fun i => e.page i) (userPagesNr k buf count) buf count
  write := write
  epAddr := u64 pos
  count := u32 count

/-! ## What is asked of it -/

/-- **The request conveys the buffer** of `count` bytes at `buf`: its first `sgcnt` entries cover
it in order, they add up to its `count`, and the last of them ends the list. -/
structure Conveys (p : ℕ) (page : ℕ → ℕ) (buf count : ℕ) (req : CdevReq) : Prop where
  inOrder : ∀ i sg, (req.sgl.take req.sgcnt)[i]? = some sg →
    sg.pg = page ((buf + sgStart req.sgl i) / p - buf / p) ∧
      sg.offset = (buf + sgStart req.sgl i) % p ∧ sg.offset + sg.len ≤ p
  total : ((req.sgl.take req.sgcnt).map (fun sg => sg.len)).sum = req.count
  count : req.count = count
  ends : ∃ sg, (req.sgl.take req.sgcnt).getLast? = some sg ∧ sg.next = none

/-! ## A transfer -/

/-- **What a call hands over** when all pages are pinned. -/
theorem cdevGenReadWrite_pinned {k : PageShift} {x : CdevFile} {e : PinEnv} {buf count : ℕ}
    (pos : ℕ) {write : Bool} (hx : x.Ready write) (hnr : userPagesNr k buf count ≠ 0)
    (h : e.Pins k buf count) :
    (cdevGenReadWrite k x e buf count pos write).submitted =
      some (if write then x.h2cQhndl else x.c2hQhndl, cdevReq k e buf count pos write) := by
  obtain ⟨hrw, hfree⟩ := hx
  obtain ⟨fpRw, hrw⟩ := Option.isSome_iff_exists.mp hrw
  obtain ⟨mem, hmem⟩ := Option.isSome_iff_exists.mp h.pagesMem
  have hmap := mapUserBuf_pinned (s := { buf := buf, len := count }) write hnr h.sgMem hmem h.all
  unfold cdevGenReadWrite
  rw [hrw]
  simp only
  rw [hfree, if_neg (show ¬ (!true) = true by decide), hmap]
  rfl

/-- The bytes of the first entries. -/
theorem sgStart_eq_sum (l : List SgEntry) (i : ℕ) :
    ((l.take i).map (fun sg => sg.len)).sum = sgStart l i := rfl

/-- **A list that partitions the buffer conveys it** if it is handed over whole. -/
theorem Partitions.conveys {p : ℕ} {page : ℕ → ℕ} {buf count : ℕ} {req : CdevReq}
    (h : Partitions p page buf count req.sgl) (hcnt : req.sgcnt = touched p buf count)
    (hcount : req.count = count) : Conveys p page buf count req := by
  have htake : req.sgl.take req.sgcnt = req.sgl := by
    rw [hcnt, ← h.length, List.take_length]
  have hlen : 0 < req.sgl.length := h.length ▸ touched_pos
  refine ⟨fun i sg hi => ?_, ?_, hcount, ?_⟩
  · rw [htake] at hi
    obtain ⟨hpg, hpage, hoff, hfit⟩ := h.onPage i sg hi
    rw [hpage, Nat.add_sub_cancel_left]
    exact ⟨hpg, hoff, hfit⟩
  · rw [htake, hcount]
    exact h.total
  · rw [htake, List.getLast?_eq_getElem?]
    have hlast := List.getElem?_eq_getElem (l := req.sgl) (i := req.sgl.length - 1) (by omega)
    refine ⟨_, hlast, ?_⟩
    rw [h.chain _ _ hlast, if_neg (by omega)]

/-- The request as the library takes it, which goes through its first `sgcnt` entries. -/
def CdevReq.toRequest (req : CdevReq) (h : req.count < 2 ^ 32) (hs : req.sgcnt < 2 ^ 16) :
    Request where
  write := req.write
  count := req.count
  epAddr := req.epAddr
  dmaMapped := req.dmaMapped
  fpDone := req.fpDone
  sgl := (req.sgl.take req.sgcnt).map SgEntry.toSwSg
  count_lt := h
  sgcnt_lt := by
    rw [List.length_map]
    exact (List.length_take_le _ _).trans_lt hs

/-- **A list that is cut short conveys nothing like it**: bytes are missing. -/
theorem not_conveys_of_lt {k : PageShift} {page : ℕ → ℕ} {buf count : ℕ} {req : CdevReq}
    (hlist : req.sgl = builtSgl k page (touched k.size buf count) buf count)
    (hlen : count < 2 ^ 32) (hpos : 0 < count) (hcnt : req.sgcnt < touched k.size buf count) :
    ¬ Conveys k.size page buf count req := by
  -- the entries that are handed over end before the last page, which has bytes of the buffer
  rintro ⟨-, htotal, hcount, -⟩
  have hspec := (touched_spec buf k.size_pos hpos).1
  have hmul : req.sgcnt * k.size ≤ (touched k.size buf count - 1) * k.size :=
    Nat.mul_le_mul_right k.size (Nat.le_sub_one_of_lt hcnt)
  rw [sgStart_eq_sum, hlist, builtSgl_start k page buf hlen hcnt.le, bytesOn_of_le (by omega),
    hcount] at htotal
  omega

/-- The request conveys the buffer. -/
def TransferConveys (k : PageShift) (x : CdevFile) (e : PinEnv) (buf count pos : ℕ)
    (write : Bool) : Prop :=
  ∃ qhndl req, (cdevGenReadWrite k x e buf count pos write).submitted = some (qhndl, req) ∧
    Conveys k.size (fun i => e.page i) buf count req

/-- The request that counts is the one over the list that is built. -/
theorem transferConveys_iff {k : PageShift} {x : CdevFile} {e : PinEnv} {buf count : ℕ}
    (pos : ℕ) {write : Bool} (hx : x.Ready write)
    (hnr : userPagesNr k buf count = touched k.size buf count) (h : e.Pins k buf count) :
    TransferConveys k x e buf count pos write ↔
      Conveys k.size (fun i => e.page i) buf count (cdevReq k e buf count pos write) := by
  unfold TransferConveys
  rw [cdevGenReadWrite_pinned pos hx (hnr ▸ touched_pos.ne') h]
  constructor
  · rintro ⟨qhndl, req, heq, hc⟩
    obtain ⟨-, rfl⟩ := Prod.mk.inj (Option.some.inj heq)
    exact hc
  · intro hc
    exact ⟨_, _, rfl, hc⟩

/-- A request of 2^16 pages or more does not convey its buffer. -/
theorem not_conveys_of_pages {k : PageShift} {e : PinEnv} {buf count : ℕ} (pos : ℕ)
    (write : Bool) (hcount : count < 2 ^ 31)
    (hnr : userPagesNr k buf count = touched k.size buf count)
    (hge : 2 ^ 16 ≤ touched k.size buf count) :
    ¬ Conveys k.size (fun i => e.page i) buf count (cdevReq k e buf count pos write) := by
  have hpos : 0 < count := by
    refine Nat.pos_of_ne_zero (fun h0 => ?_)
    rw [show touched k.size buf count = 1 from if_pos h0] at hge
    exact absurd hge (by decide)
  refine not_conveys_of_lt (congrArg (builtSgl k _ · buf count) hnr) (by omega) hpos ?_
  -- `sgcnt` is less than 2^16, whatever the number of pages
  show u16 (userPagesNr k buf count) < _
  rw [hnr]
  exact (Nat.mod_lt _ (by decide)).trans_le hge

/-- **When a transfer conveys its whole buffer**, of up to `INT_MAX` bytes whose pages can be
pinned: just when it touches fewer than 2^16 pages. -/
theorem transfer_conveys_iff (k : PageShift) (x : CdevFile) (e : PinEnv) {buf count : ℕ} (pos : ℕ)
    {write : Bool} (hcount : count < 2 ^ 31) (hx : x.Ready write) (hpins : e.Pins k buf count) :
    TransferConveys k x e buf count pos write ↔ touched k.size buf count < 2 ^ 16 := by
  have hsize := k.size_le
  have hmod : buf % k.size < k.size := Nat.mod_lt _ k.size_pos
  have hle : touched k.size buf count ≤ count + 1 := touched_le k.size_pos
  have hnr : userPagesNr k buf count = touched k.size buf count :=
    userPagesNr_eq (by omega) (by omega)
  rw [transferConveys_iff pos hx hnr hpins]
  constructor
  · intro hc
    by_contra hge
    exact not_conveys_of_pages pos write hcount hnr (not_lt.mp hge) hc
  · intro hlt
    have hcnt : u16 (userPagesNr k buf count) = touched k.size buf count := by
      rw [hnr]
      exact Nat.mod_eq_of_lt hlt
    have hlist := builtSgl_partitions k (fun i => e.page i) buf (show count < 2 ^ 32 by omega)
    rw [← hnr] at hlist
    exact hlist.conveys hcnt (Nat.mod_eq_of_lt (by omega))

/-- **The passes of the library are asked to serve a user buffer** when fewer than 2^16 pages are
mapped. -/
theorem cdevReq_userBuf {k : PageShift} {e : PinEnv} {buf count : ℕ} (pos : ℕ) (write : Bool)
    (hlt : count < 2 ^ 32) (hnr : userPagesNr k buf count = touched k.size buf count)
    (hpages : touched k.size buf count < 2 ^ 16) :
    UserBuf k.size ((cdevReq k e buf count pos write).toRequest (Nat.mod_lt _ (by decide))
      (Nat.mod_lt _ (by decide))) := by
  have hcnt : u16 (userPagesNr k buf count) = userPagesNr k buf count :=
    Nat.mod_eq_of_lt (hnr.trans_lt hpages)
  have hcount : u32 count = count := Nat.mod_eq_of_lt hlt
  refine @userBuf_of_lens k.size buf k.size_pos _ ?_
  show (((builtSgl k _ (userPagesNr k buf count) buf count).take
    (u16 (userPagesNr k buf count))).map SgEntry.toSwSg).map SwSg.len =
      userBufLens k.size (pagesNr k.size buf (u32 count)) buf (u32 count)
  rw [hcnt, hcount, pagesNr_eq_touched k.size_pos, ← hnr, ← builtSgl_lens k _ _ buf hlt,
    List.map_map, List.take_of_length_le]
  · rfl
  · rw [builtSgl_eq k _ _ buf hlt, List.length_map, List.length_range]

/-- A device file with both queues. -/
def bothQueues : CdevFile where
  c2hQhndl := 2048
  dirInit := 3
  fpRw := some (fun _ req => req.count)

/-- 5000 bytes from the middle of a page on. -/
theorem transfer_conveys_5000 : TransferConveys 12 bothQueues pinsAll 2148 5000 0 true :=
  (transfer_conveys_iff 12 bothQueues pinsAll 0 (by decide) ⟨rfl, rfl⟩
    (pinsAll_pins (by decide))).mpr (by decide)

/-- **256 MiB from the start of a page on**: 2^16 pages, and an `sgcnt` of 0. -/
theorem transfer_256_mib :
    (cdevGenReadWrite 12 bothQueues pinsAll (2 ^ 32) (2 ^ 28) 0 true).submitted =
        some (0, cdevReq 12 pinsAll (2 ^ 32) (2 ^ 28) 0 true) ∧
      (cdevReq 12 pinsAll (2 ^ 32) (2 ^ 28) 0 true).sgcnt = 0 ∧
      (cdevReq 12 pinsAll (2 ^ 32) (2 ^ 28) 0 true).count = 2 ^ 28 ∧
      ¬ TransferConveys 12 bothQueues pinsAll (2 ^ 32) (2 ^ 28) 0 true := by
  have hnr : userPagesNr 12 (2 ^ 32) (2 ^ 28) = 2 ^ 16 := by decide
  have htouched : touched (PageShift.size 12) (2 ^ 32) (2 ^ 28) = 2 ^ 16 := by decide
  have hpins : pinsAll.Pins 12 (2 ^ 32) (2 ^ 28) := pinsAll_pins (by rw [hnr]; decide)
  have hready : bothQueues.Ready true := ⟨rfl, rfl⟩
  refine ⟨cdevGenReadWrite_pinned 0 hready (by rw [hnr]; decide) hpins, ?_, by decide, ?_⟩
  · show u16 (userPagesNr 12 (2 ^ 32) (2 ^ 28)) = 0
    rw [hnr]
    decide
  · rw [transferConveys_iff 0 hready (hnr.trans htouched.symm) hpins]
    exact not_conveys_of_pages 0 true (by decide) (hnr.trans htouched.symm) htouched.ge

end Qdma
