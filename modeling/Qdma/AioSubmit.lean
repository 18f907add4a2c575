/-
# Submitting vectored I/O

`cdev_aio_write` and `cdev_aio_read` queue a request of its own for each segment of a vector.
Which segment a request is for shows in its pages alone: `count` is the length of the first segment,
and `ep_addr` the position of the whole call.

`aio_segments_iff`: every segment is transferred, to where it belongs, just when there is at most
one, or all are empty.
-/
import Qdma.UserTransfer

namespace Qdma

open PageCut

/-! ## Submitting -/

/-- `-EIOCBQUEUED`. -/
def eiocbqueued : ℤ := -529

/-- `struct iovec`. -/
structure IoVec where
  base : ℕ
  len : ℕ
  deriving DecidableEq

/-- What the kernel answers for a segment: whether there is memory for the control block, and what
is answered when its buffer is mapped. -/
structure AioEnv where
  caioMem : Bool := true
  pins : PinEnv

/-- `struct cdev_async_io` as it is queued: its buffer, and its request. -/
structure AioWork where
  iocb : IoCb
  req : CdevReq

/-- What becomes of a segment.  Nobody checks whether there is a control block. -/
inductive AioSegment where
  | oops
  | failed (rv : ℤ) (iocb : IoCb)
  | queued (w : AioWork)

/-- One pass of the loop of `cdev_aio_write` and `cdev_aio_read`; `io` is the first segment. -/
def aioSegment (k : PageShift) (write : Bool) (io : IoVec) (pos : ℕ) (v : IoVec) (e : AioEnv) :
    AioSegment :=
  if !e.caioMem then .oops
  else
    let (iocb, rv) := mapUserBufToSgl k { buf := v.base, len := v.len } e.pins write
    if rv < 0 then .failed rv iocb
    else
      .queued
        { iocb := iocb
          req :=
            { sgcnt := u16 iocb.pagesNr
              sgl := iocb.sgl.getD []
              write := write
              epAddr := u64 pos
              count := u32 io.len } }

/-- What a call comes to: its value, if it returns, and what it has queued by then. -/
structure AioResult where
  rv : Option ℤ
  queued : List AioWork := []

/-- The loop, from segment `i` on. -/
def aioLoop (k : PageShift) (write : Bool) (io : IoVec) (pos : ℕ) (env : ℕ → AioEnv) :
    List IoVec → ℕ → AioResult
  | [], _ => { rv := some eiocbqueued }
  | v :: vs, i =>
      match aioSegment k write io pos v (env i) with
      | .oops => { rv := none }
      | .failed rv _ => { rv := some rv }
      | .queued w =>
          let r := aioLoop k write io pos env vs (i + 1)
          { r with queued := w :: r.queued }

/-- `cdev_aio_write` and `cdev_aio_read`, which differ in `write` only. -/
def cdevAio (k : PageShift) (x : CdevFile) (write : Bool) (io : List IoVec) (pos : ℕ)
    (env : ℕ → AioEnv) : AioResult :=
  if x.fpRw.isNone then { rv := some einval }
  else aioLoop k write (io.headD ⟨0, 0⟩) pos env io 0

/-- `cdev_aio_write`. -/
def cdevAioWrite (k : PageShift) (x : CdevFile) (io : List IoVec) (pos : ℕ) (env : ℕ → AioEnv) :
    AioResult :=
  cdevAio k x true io pos env

/-- `cdev_aio_read`. -/
def cdevAioRead (k : PageShift) (x : CdevFile) (io : List IoVec) (pos : ℕ) (env : ℕ → AioEnv) :
    AioResult :=
  cdevAio k x false io pos env

/-- `struct iov_iter`. -/
structure IovIter where
  iov : List IoVec
  iovOffset : ℕ

/-- `cdev_write_iter`, which is given the position in the `kiocb`. -/
def cdevWriteIter (k : PageShift) (x : CdevFile) (io : IovIter) (_kiPos : ℕ) (env : ℕ → AioEnv) :
    AioResult :=
  cdevAioWrite k x io.iov io.iovOffset env

/-- `cdev_read_iter`. -/
def cdevReadIter (k : PageShift) (x : CdevFile) (io : IovIter) (_kiPos : ℕ) (env : ℕ → AioEnv) :
    AioResult :=
  cdevAioRead k x io.iov io.iovOffset env

/-- An operation on a vector, from position `start` on: older kernels call `aio_write` and
`aio_read`, newer ones `write_iter` and `read_iter`. -/
inductive AioOp where
  | aio (io : List IoVec) (pos : ℕ)
  | iter (io : IovIter) (kiPos : ℕ)

/-- Its segments. -/
def AioOp.segs : AioOp → List IoVec
  | .aio io _ => io
  | .iter io _ => io.iov

/-- Where it starts. -/
def AioOp.start : AioOp → ℕ
  | .aio _ pos => pos
  | .iter _ kiPos => kiPos

/-- What is handed on as its position. -/
def AioOp.passed : AioOp → ℕ
  | .aio _ pos => pos
  | .iter io _ => io.iovOffset

/-- The entry for it. -/
def AioOp.submit (op : AioOp) (k : PageShift) (x : CdevFile) (write : Bool) (env : ℕ → AioEnv) :
    AioResult :=
  match op with
  | .aio io pos => if write then cdevAioWrite k x io pos env else cdevAioRead k x io pos env
  | .iter io kiPos =>
      if write then cdevWriteIter k x io kiPos env else cdevReadIter k x io kiPos env

/-! ## What is asked of it -/

/-- The bytes of the segments before segment `i`. -/
def vecStart (io : List IoVec) (i : ℕ) : ℕ := ((io.take i).map (fun v => v.len)).sum

/-- **Segment `i` is transferred**: its request conveys it, and starts behind the segments before
it. -/
structure SegmentRight (p : ℕ) (page : ℕ → ℕ) (start : ℕ) (io : List IoVec) (i : ℕ) (v : IoVec)
    (req : CdevReq) : Prop where
  conveys : Conveys p page v.base v.len req
  epAddr : req.epAddr = u64 (start + vecStart io i)

/-- **Every segment is transferred.** -/
def AioRight (k : PageShift) (env : ℕ → AioEnv) (op : AioOp) (reqs : List CdevReq) : Prop :=
  ∀ i v, op.segs[i]? = some v → ∃ req, reqs[i]? = some req ∧
    SegmentRight k.size (fun j => (env i).pins.page j) op.start op.segs i v req

/-- The requests that a call queues. -/
def AioResult.reqs (r : AioResult) : List CdevReq := r.queued.map (fun w => w.req)

/-- A call that queues all segments. -/
def AioOp.Accepted (op : AioOp) (k : PageShift) (x : CdevFile) (write : Bool)
    (env : ℕ → AioEnv) : Prop :=
  (op.submit k x write env).queued.length = op.segs.length

instance (op : AioOp) (k : PageShift) (x : CdevFile) (write : Bool) (env : ℕ → AioEnv) :
    Decidable (op.Accepted k x write env) :=
  inferInstanceAs (Decidable ((op.submit k x write env).queued.length = op.segs.length))

/-! ## One segment -/

/-- **What a mapping returns**: 0 if all that is asked for is there, one of three errors, or the one
that pinning ended with. -/
theorem mapUserBuf_cases (k : PageShift) (s : IoCb) (e : PinEnv) (write : Bool) :
    (mapUserBufToSgl k s e write).2 = 0 ∧ userPagesNr k s.buf s.len ≠ 0 ∧ e.Pins k s.buf s.len ∨
      (mapUserBufToSgl k s e write).2 ∈ [einval, enomem, efault] ∨
        ∃ rv h, e.answer = .error rv h ∧ (mapUserBufToSgl k s e write).2 = rv := by
  unfold mapUserBufToSgl
  simp only
  by_cases hnr : userPagesNr k s.buf s.len = 0
  · rw [if_pos hnr]
    exact .inr (.inl (show einval ∈ [einval, enomem, efault] by decide))
  rw [if_neg hnr]
  cases hsg : e.sgMem with
  | false =>
      rw [if_pos (show (!false) = true from rfl)]
      exact .inr (.inl (show enomem ∈ [einval, enomem, efault] by decide))
  | true =>
  rw [if_neg (show ¬ (!true) = true by decide)]
  cases hmem : e.pagesMem with
  | none => exact .inr (.inl (show enomem ∈ [einval, enomem, efault] by decide))
  | some mem =>
  simp only
  cases hans : e.answer with
  | error rv hneg => exact .inr (.inr ⟨rv, hneg, rfl, rfl⟩)
  | pinned m =>
  simp only
  by_cases hlt : min m.val (userPagesNr k s.buf s.len) ≠ userPagesNr k s.buf s.len
  · rw [if_pos hlt]
    exact .inr (.inl (show efault ∈ [einval, enomem, efault] by decide))
  rw [if_neg hlt]
  by_cases hdup : (List.range (userPagesNr k s.buf s.len - 1)).any
      (fun i => (e.page i : ℕ) = (e.page (i + 1) : ℕ)) = true
  · rw [if_pos hdup]
    exact .inr (.inl (show efault ∈ [einval, enomem, efault] by decide))
  -- all pages are pinned, and no two neighbours are equal
  rw [if_neg hdup]
  have hle : userPagesNr k s.buf s.len ≤ m.val := min_eq_right_iff.mp (not_not.mp hlt)
  refine .inl ⟨rfl, hnr, hsg, by rw [hmem]; rfl, ⟨m, hans, hle⟩, ?_⟩
  rintro i hi heq
  refine hdup (List.any_eq_true.mpr ⟨i, List.mem_range.mpr (by omega), ?_⟩)
  exact decide_eq_true (congrArg PNat.val heq)

/-- **What a mapping that succeeds has been answered.** -/
theorem mapUserBuf_ok {k : PageShift} {s : IoCb} {e : PinEnv} {write : Bool}
    (h : ¬ (mapUserBufToSgl k s e write).2 < 0) :
    userPagesNr k s.buf s.len ≠ 0 ∧ e.Pins k s.buf s.len := by
  rcases mapUserBuf_cases k s e write with ⟨-, hok⟩ | hrv | ⟨rv, hneg, -, hrv⟩
  · exact hok
  · have herr : ∀ rv ∈ [einval, enomem, efault], rv < 0 := by decide
    exact absurd (herr _ hrv) h
  · rw [hrv] at h
    exact absurd hneg h

/-- The request of a segment. -/
def aioReq (k : PageShift) (e : PinEnv) (write : Bool) (io : IoVec) (pos : ℕ) (v : IoVec) :
    CdevReq :=
  { cdevReq k e v.base v.len pos write with count := u32 io.len }

/-- **What becomes of a segment** with a control block, by what its mapping returns. -/
theorem aioSegment_eq {k : PageShift} {write : Bool} {io : IoVec} {pos : ℕ} {v : IoVec}
    {e : AioEnv} {iocb : IoCb} {rv : ℤ} (hcaio : e.caioMem = true)
    (hmap : mapUserBufToSgl k { buf := v.base, len := v.len } e.pins write = (iocb, rv)) :
    aioSegment k write io pos v e =
      if rv < 0 then .failed rv iocb
      else .queued
        { iocb := iocb
          req := { sgcnt := u16 iocb.pagesNr, sgl := iocb.sgl.getD [], write := write,
                   epAddr := u64 pos, count := u32 io.len } } := by
  unfold aioSegment
  rw [hcaio, if_neg (show ¬ (!true) = true by decide), hmap]

/-- **What a segment that is queued has been answered**, and its request. -/
theorem aioSegment_queued {k : PageShift} {write : Bool} {io : IoVec} {pos : ℕ} {v : IoVec}
    {e : AioEnv} {w : AioWork} (h : aioSegment k write io pos v e = .queued w) :
    e.pins.Pins k v.base v.len ∧ w.req = aioReq k e.pins write io pos v := by
  cases hcaio : e.caioMem with
  | false =>
      unfold aioSegment at h
      rw [hcaio, if_pos (show (!false) = true from rfl)] at h
      exact absurd h (fun h => AioSegment.noConfusion h)
  | true =>
  by_cases hrv : (mapUserBufToSgl k { buf := v.base, len := v.len } e.pins write).2 < 0
  · rw [aioSegment_eq hcaio (Prod.eta _).symm, if_pos hrv] at h
    exact absurd h (fun h => AioSegment.noConfusion h)
  obtain ⟨hnr, hpins⟩ := mapUserBuf_ok hrv
  obtain ⟨mem, hmem⟩ := Option.isSome_iff_exists.mp hpins.pagesMem
  have hmap := mapUserBuf_pinned (s := { buf := v.base, len := v.len }) write hnr hpins.sgMem hmem
    hpins.all
  rw [aioSegment_eq hcaio hmap, if_neg (lt_irrefl 0)] at h
  rw [← AioSegment.queued.inj h]
  exact ⟨hpins, rfl⟩

/-- No 32-bit length has too many pages to count them. -/
theorem touched_lt_of_len {k : PageShift} (buf : ℕ) {len : ℕ} (hlen : len < 2 ^ 32) :
    touched k.size buf len < 2 ^ 32 := by
  by_cases h0 : len = 0
  · rw [show touched k.size buf len = 1 from if_pos h0]
    decide
  · have hp := k.size_pos
    have ho : buf % k.size < k.size := Nat.mod_lt _ hp
    rw [touched_eq hp (Nat.pos_of_ne_zero h0), Nat.div_lt_iff_lt_mul hp]
    omega

theorem userPagesNr_of_len {k : PageShift} (buf : ℕ) {len : ℕ} (hlen : len < 2 ^ 32) :
    userPagesNr k buf len = touched k.size buf len := by
  have hsize := k.size_le
  have ho : buf % k.size < k.size := Nat.mod_lt _ k.size_pos
  exact userPagesNr_eq (by omega) (touched_lt_of_len buf hlen)

/-- **When the request of a segment conveys it**: if `count` is its length, just when it is empty
or touches fewer than 2^16 pages. -/
theorem aioReq_conveys_iff {k : PageShift} (e : PinEnv) (write : Bool) {io : IoVec} (pos : ℕ)
    {v : IoVec} (hcount : u32 io.len = v.len) :
    Conveys k.size (fun j => e.page j) v.base v.len (aioReq k e write io pos v) ↔
      touched k.size v.base v.len < 2 ^ 16 := by
  have hlen : v.len < 2 ^ 32 := hcount ▸ Nat.mod_lt _ (by decide)
  have hnr := @userPagesNr_of_len k v.base v.len hlen
  have hsgcnt : (aioReq k e write io pos v).sgcnt = u16 (touched k.size v.base v.len) :=
    congrArg u16 hnr
  have hsgl : (aioReq k e write io pos v).sgl =
      builtSgl k (fun j => e.page j) (touched k.size v.base v.len) v.base v.len :=
    congrArg (builtSgl k _ · v.base v.len) hnr
  constructor
  · intro hc
    by_contra hge
    have hpos : 0 < v.len := by
      refine Nat.pos_of_ne_zero (fun h0 => hge ?_)
      rw [show touched k.size v.base v.len = 1 from if_pos h0]
      decide
    -- `sgcnt` is less than 2^16, whatever the number of pages
    refine not_conveys_of_lt hsgl hlen hpos ?_ hc
    rw [hsgcnt]
    exact (Nat.mod_lt _ (by decide)).trans_le (not_lt.mp hge)
  · intro hlt
    have hpart := builtSgl_partitions k (fun j => e.page j) v.base hlen
    rw [← hsgl] at hpart
    exact hpart.conveys (hsgcnt.trans (Nat.mod_eq_of_lt hlt)) hcount

/-! ## All segments -/

/-- **The requests of a loop that queues all segments.** -/
theorem aioLoop_queued {k : PageShift} {write : Bool} {io : IoVec} {pos : ℕ} {env : ℕ → AioEnv}
    {vs : List IoVec} {i : ℕ}
    (h : (aioLoop k write io pos env vs i).queued.length = vs.length) :
    (∀ j v, vs[j]? = some v → (env (i + j)).pins.Pins k v.base v.len) ∧
      (aioLoop k write io pos env vs i).reqs =
        vs.mapIdx (fun j v => aioReq k (env (i + j)).pins write io pos v) := by
  induction vs generalizing i with
  | nil => exact ⟨fun j v hj => by simp at hj, rfl⟩
  | cons v vs ih =>
      rw [aioLoop] at h ⊢
      cases hseg : aioSegment k write io pos v (env i) with
      | oops =>
          rw [hseg] at h
          exact absurd h (Nat.succ_ne_zero _).symm
      | failed rv iocb =>
          rw [hseg] at h
          exact absurd h (Nat.succ_ne_zero _).symm
      | queued w =>
          rw [hseg] at h
          obtain ⟨hpins, hreq⟩ := aioSegment_queued hseg
          obtain ⟨hrest, hreqs⟩ := ih (Nat.succ.inj h)
          have hshift : ∀ j, i + (j + 1) = i + 1 + j := fun j => by omega
          constructor
          · intro j u hj
            cases j with
            | zero =>
                obtain rfl := Option.some.inj hj
                exact hpins
            | succ j =>
                rw [hshift]
                exact hrest j u hj
          · have hfun : (fun j u => aioReq k (env (i + (j + 1))).pins write io pos u) =
                fun j u => aioReq k (env (i + 1 + j)).pins write io pos u := by
              funext j u
              rw [hshift]
            unfold AioResult.reqs at hreqs ⊢
            simp only
            rw [List.map_cons, List.mapIdx_cons, hreqs, hreq, hfun]
            rfl

/-- What is queued by an operation that is accepted. -/
theorem AioOp.Accepted.reqs {op : AioOp} {k : PageShift} {x : CdevFile} {write : Bool}
    {env : ℕ → AioEnv} (h : op.Accepted k x write env) :
    (op.submit k x write env).reqs = op.segs.mapIdx
      (fun j v => aioReq k (env j).pins write (op.segs.headD ⟨0, 0⟩) op.passed v) := by
  have hsubmit : op.submit k x write env = cdevAio k x write op.segs op.passed env := by
    cases op <;> cases write <;> rfl
  unfold AioOp.Accepted at h
  rw [hsubmit] at h ⊢
  unfold cdevAio at h ⊢
  by_cases hrw : x.fpRw.isNone = true
  · rw [if_pos hrw] at h ⊢
    have hnil : op.segs = [] := List.length_eq_zero_iff.mp h.symm
    rw [hnil]
    rfl
  · rw [if_neg hrw] at h ⊢
    have hloop := (aioLoop_queued h).2
    simp only [Nat.zero_add] at hloop
    exact hloop

/-- **When every segment is transferred**, by an operation that is accepted: just when there is
none, or the position that is handed on is where the operation starts and either all segments are
empty or there is one alone, of fewer than 2^32 bytes on fewer than 2^16 pages. -/
theorem aio_segments_iff (k : PageShift) (x : CdevFile) (write : Bool) (env : ℕ → AioEnv)
    (op : AioOp) (hacc : op.Accepted k x write env) :
    AioRight k env op (op.submit k x write env).reqs ↔
      op.segs = [] ∨ u64 op.passed = u64 op.start ∧
        ((∀ v ∈ op.segs, v.len = 0) ∨ ∃ v, op.segs = [v] ∧ v.len < 2 ^ 32 ∧
          touched k.size v.base v.len < 2 ^ 16) := by
  rw [hacc.reqs]
  unfold AioRight
  cases hsegs : op.segs with
  | nil => exact iff_of_true (fun i v hi => by simp at hi) (.inl rfl)
  | cons v₀ vs =>
  rw [List.headD_cons]
  constructor
  · intro hright
    right
    -- what the first segment is told
    obtain ⟨req, hreq, hfirst⟩ := hright 0 v₀ rfl
    rw [List.getElem?_mapIdx] at hreq
    obtain rfl : aioReq k (env 0).pins write v₀ op.passed v₀ = req := Option.some.inj hreq
    have hcount : u32 v₀.len = v₀.len := hfirst.conveys.count
    have hlt : v₀.len < 2 ^ 32 := hcount ▸ Nat.mod_lt _ (by decide)
    have hpages := (aioReq_conveys_iff _ write op.passed hcount).mp hfirst.conveys
    refine ⟨hfirst.epAddr, ?_⟩
    cases vs with
    | nil => exact .inr ⟨v₀, rfl, hlt, hpages⟩
    | cons v₁ vs =>
        -- the second segment starts where the first one does, so the first one is empty
        left
        obtain ⟨req, hreq, hsecond⟩ := hright 1 v₁ rfl
        rw [List.getElem?_mapIdx] at hreq
        obtain rfl : aioReq k (env 1).pins write v₀ op.passed v₁ = req := Option.some.inj hreq
        have h0 : u64 op.passed = u64 (op.start + 0) := hfirst.epAddr
        have h1 : u64 op.passed = u64 (op.start + (v₀.len + 0)) := hsecond.epAddr
        have hempty : v₀.len = 0 := by
          unfold u64 at h0 h1
          omega
        intro v hv
        obtain ⟨i, hi⟩ := List.getElem?_of_mem hv
        obtain ⟨req, hreq, hseg⟩ := hright i v hi
        rw [List.getElem?_mapIdx, hi, Option.map_some] at hreq
        have hlen : u32 v₀.len = v.len := by
          rw [← hseg.conveys.count, ← Option.some.inj hreq]
          rfl
        rw [← hlen, hempty]
        rfl
  · rintro (hnil | ⟨hpos, hall⟩) i v hi
    · exact absurd hnil (List.cons_ne_nil _ _)
    · refine ⟨aioReq k (env i).pins write v₀ op.passed v, ?_, ?_⟩
      · rw [List.getElem?_mapIdx, hi, Option.map_some]
      rcases hall with hzero | ⟨v', hv', hlt, hpages⟩
      · -- all segments are empty, and start where the operation does
        have hv : v.len = 0 := hzero v (List.mem_of_getElem? hi)
        have hv₀ : v₀.len = 0 := hzero v₀ List.mem_cons_self
        have hstart : vecStart (v₀ :: vs) i = 0 := by
          refine List.sum_eq_zero (fun n hn => ?_)
          obtain ⟨u, hu, rfl⟩ := List.mem_map.mp hn
          exact hzero u (List.mem_of_mem_take hu)
        have hcount : u32 v₀.len = v.len := by
          rw [hv, hv₀]
          rfl
        refine ⟨(aioReq_conveys_iff _ write op.passed hcount).mpr ?_, ?_⟩
        · rw [show touched k.size v.base v.len = 1 from if_pos hv]
          decide
        · rw [hstart]
          exact hpos
      · -- there is one segment
        obtain ⟨rfl, rfl⟩ := List.cons.inj hv'
        cases i with
        | succ i => exact absurd hi (by simp)
        | zero =>
            obtain rfl := Option.some.inj hi
            have hcount : u32 v₀.len = v₀.len := Nat.mod_eq_of_lt hlt
            exact ⟨(aioReq_conveys_iff _ write op.passed hcount).mpr hpages, hpos⟩

/-- A kernel that has memory for everything, and pins what it is asked to. -/
def aioPinsAll : ℕ → AioEnv := fun _ => { pins := pinsAll }

/-- One segment of 5000 bytes, from position 64 on. -/
theorem aio_segments_5000 :
    AioRight 12 aioPinsAll (.aio [⟨2148, 5000⟩] 64)
      (AioOp.submit (.aio [⟨2148, 5000⟩] 64) 12 bothQueues true aioPinsAll).reqs :=
  (aio_segments_iff 12 bothQueues true aioPinsAll (.aio [⟨2148, 5000⟩] 64)
    (by decide +kernel)).mpr (.inr ⟨rfl, .inr ⟨_, rfl, by decide, by decide⟩⟩)

/-- **Two segments of 4 and 8 kB, from position 0 on**: both requests are for 4 kB at address 0. -/
theorem aio_two_segments :
    AioOp.Accepted (.aio [⟨4096, 4096⟩, ⟨16384, 8192⟩] 0) 12 bothQueues true aioPinsAll ∧
      (AioOp.submit (.aio [⟨4096, 4096⟩, ⟨16384, 8192⟩] 0) 12 bothQueues true
        aioPinsAll).reqs.map (fun req => (req.count, req.epAddr)) = [(4096, 0), (4096, 0)] ∧
      ¬ AioRight 12 aioPinsAll (.aio [⟨4096, 4096⟩, ⟨16384, 8192⟩] 0)
        (AioOp.submit (.aio [⟨4096, 4096⟩, ⟨16384, 8192⟩] 0) 12 bothQueues true
          aioPinsAll).reqs := by
  refine ⟨by decide +kernel, by decide +kernel, ?_⟩
  intro hright
  obtain ⟨req, hreq, hseg⟩ := hright 1 ⟨16384, 8192⟩ rfl
  have hcount : ((AioOp.submit (.aio [⟨4096, 4096⟩, ⟨16384, 8192⟩] 0) 12 bothQueues true
      aioPinsAll).reqs[1]?).map (fun req => req.count) = some 4096 := by decide +kernel
  rw [hreq, Option.map_some, hseg.conveys.count] at hcount
  exact absurd hcount (by decide)

end Qdma
