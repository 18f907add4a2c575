/-
# The stores of the data path, one by one

The functions of `H2c.lean` give the state a pass leaves behind.  Here are the stores to the
descriptor ring and the writes of the doorbell they make on the way, in the order of the source:
each function has a companion that lists them.  The functions that depend on `PAGE_SIZE` take it
as the argument `pg`.
-/
import Qdma.H2c
import Qdma.RingTrace

namespace Qdma

open RingTrace

/-! ## Stores to a descriptor -/

/-- The fields of `struct qdma_mm_desc` and of `struct qdma_h2c_desc`. -/
inductive DescField where
  | rsvd1 | rsvd0 | srcAddr | dstAddr | flagLen
  | h2cSrcAddr | h2cLen | h2cPldLen | h2cCdhFlags | h2cFlags
  deriving DecidableEq

/-- `desc->f = v`, or `desc->f |= mask`. -/
inductive DescWrite where
  | set (f : DescField) (v : ℕ)
  | or (f : DescField) (mask : ℕ)

/-- The field a store goes to. -/
def DescWrite.field : DescWrite → DescField
  | .set f _ => f
  | .or f _ => f

/-- The value a store leaves in its field. -/
def DescWrite.value : DescWrite → ℕ → ℕ
  | .set _ v, _ => v
  | .or _ mask, old => old ||| mask

/-- A descriptor with one field changed. -/
def Desc.modify (x : Desc) (g : ℕ → ℕ) : DescField → Desc
  | .rsvd1 => { x with mm := { x.mm with rsvd1 := g x.mm.rsvd1 } }
  | .rsvd0 => { x with mm := { x.mm with rsvd0 := g x.mm.rsvd0 } }
  | .srcAddr => { x with mm := { x.mm with srcAddr := g x.mm.srcAddr } }
  | .dstAddr => { x with mm := { x.mm with dstAddr := g x.mm.dstAddr } }
  | .flagLen => { x with mm := { x.mm with flagLen := g x.mm.flagLen } }
  | .h2cSrcAddr => { x with h2c := { x.h2c with srcAddr := g x.h2c.srcAddr } }
  | .h2cLen => { x with h2c := { x.h2c with len := g x.h2c.len } }
  | .h2cPldLen => { x with h2c := { x.h2c with pldLen := g x.h2c.pldLen } }
  | .h2cCdhFlags => { x with h2c := { x.h2c with cdhFlags := g x.h2c.cdhFlags } }
  | .h2cFlags => { x with h2c := { x.h2c with flags := g x.h2c.flags } }

/-- What a store does to a descriptor. -/
def DescWrite.act (w : DescWrite) (x : Desc) : Desc := x.modify w.value w.field

/-- The fields a descriptor is made of.  The `flags` of an ST H2C descriptor are not among them:
they are only ever added to, and only on the first and the last descriptor of a request. -/
def descFields (st : Bool) : List DescField :=
  if st then [.h2cSrcAddr, .h2cLen, .h2cPldLen, .h2cCdhFlags]
  else [.rsvd1, .rsvd0, .srcAddr, .dstAddr, .flagLen]

/-- The descriptor ring of a queue. -/
def Descq.ring (d : Descq) : Ring Desc DescWrite DescField :=
  { n := d.conf.rngsz, act := DescWrite.act, field := DescWrite.field
    need := descFields d.conf.st }

/-! ## `descq_mm_proc_request` -/

/-- The stores of one round of the inner loop. -/
def mmPutStores (f : Fill) (len addr : ℕ) : List DescWrite :=
  [.set .rsvd1 0, .set .rsvd0 0]
    ++ (if f.d.conf.c2h then [.set .srcAddr f.epAddr, .set .dstAddr addr]
      else [.set .dstAddr f.epAddr, .set .srcAddr addr])
    ++ [.set .flagLen len, .or .flagLen (1 <<< sDescFDv)]

/-- One round of the inner loop. -/
def mmPutWrites (f : Fill) (len addr : ℕ) : List (Ev DescWrite) :=
  (mmPutStores f len addr).map (.store f.d.pidx)

/-- `while (tlen)`. -/
def mmFillEntryWrites (id : ℕ) : ℕ → ℕ → ℕ → Fill → List (Ev DescWrite)
  | 0, _, _, _ => []
  | room + 1, tlen, addr, f =>
      if tlen = 0 then []
      else
        let len := min tlen qdmaDescBlenMax
        mmPutWrites f len addr
          ++ mmFillEntryWrites id room (tlen - len) (u64 (addr + len)) (mmPut id f len addr)

/-- The scatter-gather loop. -/
def mmFillSglWrites (id descMax : ℕ) : List SwSg → ℕ → Fill → List (Ev DescWrite)
  | [], _, _ => []
  | sg :: sgl, sgOffset, f =>
      if f.descCnt < descMax then
        let (sgOffset, tlen, addr) := skipOffset sgOffset sg.len sg.dmaAddr
        mmFillEntryWrites id (descMax - f.descCnt) tlen addr f
          ++ mmFillSglWrites id descMax sgl sgOffset
            (mmFillEntry id (descMax - f.descCnt) tlen addr f)
      else []

/-- `descq_mm_proc_request`: the flags are patched on the last and on the first descriptor, and
the doorbell is written, after the loop. -/
def descqMmProcRequestWrites (d : Descq) (cb : SgtReqCb) : List (Ev DescWrite) :=
  let descMax := d.avail
  if descMax = 0 then []
  else
    match resumeAt cb with
    | none => []
    | some (i, sgOffset) =>
        let descStart := d.pidx
        let f₀ : Fill := { d := d, epAddr := u64 (cb.req.epAddr + cb.offset) }
        let f := mmFillSgl cb.id descMax (cb.req.sgl.drop i) sgOffset f₀
        mmFillSglWrites cb.id descMax (cb.req.sgl.drop i) sgOffset f₀
          ++ match f.descEnd with
            | none => []
            | some descEnd =>
                [.store descEnd (.or .flagLen (1 <<< sDescFEop)),
                  .store descStart (.or .flagLen (1 <<< sDescFSop)), .bell f.d.pidx]

/-! ## `descq_proc_st_h2c_request` -/

/-- The stores of one round of the inner loop. -/
def stPutStores (eop : Bool) (len addr : ℕ) : List DescWrite :=
  [.set .h2cSrcAddr addr, .set .h2cLen (u16 len), .set .h2cPldLen (u16 len),
    .or .h2cCdhFlags sH2cDescFZeroCdh]
    ++ (if eop then [.or .h2cFlags sH2cDescFEop] else [])

/-- One round of the inner loop, which rings the doorbell for its descriptor. -/
def stPutWrites (id : ℕ) (eop : Bool) (f : Fill) (len addr : ℕ) : List (Ev DescWrite) :=
  (stPutStores eop len addr).map (.store f.d.pidx) ++ [.bell (stPutOf id eop f len addr).d.pidx]

/-- `do { } while (tlen)`. -/
def stFillEntryWrites (pg id : ℕ) (eop : Bool) : ℕ → ℕ → ℕ → Fill → List (Ev DescWrite)
  | 0, _, _, _ => []
  | room + 1, tlen, addr, f =>
      let len := min tlen pg
      stPutWrites id eop f len addr
        ++ if tlen - len = 0 then []
          else stFillEntryWrites pg id eop room (tlen - len) (u64 (addr + len))
            (stPutOf id eop f len addr)

/-- The scatter-gather loop. -/
def stFillSglWrites (pg id descMax : ℕ) : List SwSg → ℕ → Fill → List (Ev DescWrite)
  | [], _, _ => []
  | sg :: sgl, sgOffset, f =>
      if f.descCnt < descMax then
        let (sgOffset, tlen, addr) := skipOffset sgOffset sg.len sg.dmaAddr
        stFillEntryWrites pg id sgl.isEmpty (descMax - f.descCnt) tlen addr f
          ++ stFillSglWrites pg id descMax sgl sgOffset
            (stFillEntryOf pg id sgl.isEmpty (descMax - f.descCnt) tlen addr f)
      else []

/-- `descq_proc_st_h2c_request`: the flag of the first descriptor is set before the loop. -/
def descqProcStH2cRequestWrites (pg : ℕ) (d : Descq) (cb : SgtReqCb) : List (Ev DescWrite) :=
  let descMax := d.avail
  if descMax = 0 then []
  else
    match resumeAt cb with
    | none => []
    | some (i, sgOffset) =>
        let d₁ := if cb.offset ≠ 0 then d else d.h2cSetFlag d.pidx sH2cDescFSop
        (if cb.offset ≠ 0 then [] else [.store d.pidx (.or .h2cFlags sH2cDescFSop)])
          ++ stFillSglWrites pg cb.id descMax (cb.req.sgl.drop i) sgOffset { d := d₁ }

/-! ## Passes and writebacks -/

/-- `qdma_descq_proc_sgt_request`. -/
def qdmaDescqProcSgtRequestWrites (pg : ℕ) (d : Descq) (cb : SgtReqCb) : List (Ev DescWrite) :=
  if !d.conf.st then descqMmProcRequestWrites d cb
  else if d.conf.st && !d.conf.c2h then descqProcStH2cRequestWrites pg d cb
  else []

/-- The loop of `qdma_thread_wrk_proc`. -/
def wrkProcLoopWrites (pg : ℕ) : List SgtReqCb → Descq → List (Ev DescWrite)
  | [], _ => []
  | cb :: cbs, d =>
      let tr := qdmaDescqProcSgtRequestWrites pg d cb
      let (d, rv) := qdmaDescqProcSgtRequestOf pg d cb
      let d := if rv < 0 then qdmaSgtReqDone d cb rv else d
      tr ++ if d.avail = 0 then [] else wrkProcLoopWrites pg cbs d

/-- `qdma_thread_wrk_proc`. -/
def qdmaThreadWrkProcWrites (pg : ℕ) (d : Descq) : List (Ev DescWrite) :=
  wrkProcLoopWrites pg d.workList d

/-- `descq_mm_n_h2c_wb`: `cidx` follows the writeback status, and the doorbell is written with
the index it has. -/
def descqMmNH2cWbWrites (d : Descq) : List (Ev DescWrite) :=
  if d.pidx = d.cidx then []
  else
    let cidxHw := d.desc.wbCidx
    if cidxHw = d.cidx then []
    else [.credit cidxHw, .bell d.pidx]

end Qdma
