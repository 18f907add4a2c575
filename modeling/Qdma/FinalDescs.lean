/-
# Descriptors are final before they are published

The trace of the stores and doorbells of a queue obeys the law of `RingTrace.Final`, in every run
of the worker, the writeback, the callers and the device.

* `MmFilled`: what holds all along the loops of `descq_mm_proc_request`, which stores to the free
  slots behind `pidx` and rings for all of them at the end.
* `StFilled`: the same for `descq_proc_st_h2c_request`, which rings for each descriptor.
* `descs_final`: the law, and that the trace leads to the state of the run.
-/
import Qdma.Stores
import Qdma.RingRun

namespace Qdma

open RingIndex RingTrace Exec

/-! ## The ring of a queue -/

/-- A descriptor as memory holds it: without the request it belongs to. -/
def Desc.bare (x : Desc) : Desc := { x with owner := none }

/-- The descriptors as memory holds them. -/
def Descq.image (d : Descq) : ℕ → Desc := Desc.bare ∘ d.desc.slot

/-- The board shows the ring of the queue. -/
structure Shows (b : Board Desc DescField) (d : Descq) : Prop where
  slot : b.slot = d.image
  pub : b.pub = d.regs.pidx
  wb : b.wb = d.desc.wbCidx
  cidx : b.cidx = d.cidx

/-- The board a queue shows. -/
def Descq.board (d : Descq) : Board Desc DescField :=
  { slot := d.image, pub := d.regs.pidx, wb := d.desc.wbCidx, cidx := d.cidx }

theorem shows_board (d : Descq) : Shows d.board d := ⟨rfl, rfl, rfl, rfl⟩

/-- The ring law without its history. -/
structure RingLaw (q : Descq) : Prop where
  kind : (q.conf.st && q.conf.c2h) = false
  pidx_lt : q.pidx < q.conf.rngsz
  cidx_lt : q.cidx < q.conf.rngsz
  wb_lt : q.desc.wbCidx < q.conf.rngsz
  avail : q.avail + dist q.conf.rngsz q.cidx q.pidx = q.conf.rngsz - 1
  wb_le : dist q.conf.rngsz q.cidx q.desc.wbCidx ≤ dist q.conf.rngsz q.cidx q.pidx
  rung : q.regs.pidx = q.pidx

theorem RingInv.law {q : Descq} (h : RingInv q) : RingLaw q :=
  ⟨h.kind, h.pidx_lt, h.cidx_lt, h.wb_lt, h.avail, h.wb_le, h.rung⟩

theorem RingLaw.congr {q q' : Descq} (h : RingLaw q) (hs : SameRing q q') : RingLaw q' := by
  obtain ⟨hc, hp, hci, ha, hd, hr⟩ := hs
  refine ⟨?_, ?_, ?_, ?_, ?_, ?_, ?_⟩
  · rw [hc]
    exact h.kind
  · rw [hc, hp]
    exact h.pidx_lt
  · rw [hc, hci]
    exact h.cidx_lt
  · rw [hc, hd]
    exact h.wb_lt
  · rw [hc, hp, hci, ha]
    exact h.avail
  · rw [hc, hp, hci, hd]
    exact h.wb_le
  · rw [hr, hp]
    exact h.rung

theorem Shows.congr {b : Board Desc DescField} {q q' : Descq} (h : Shows b q)
    (hs : SameRing q q') : Shows b q' := by
  obtain ⟨-, -, hci, -, hd, hr⟩ := hs
  refine ⟨?_, ?_, ?_, ?_⟩
  · unfold Descq.image
    rw [hd]
    exact h.slot
  · rw [hr]
    exact h.pub
  · rw [hd]
    exact h.wb
  · rw [hci]
    exact h.cidx

theorem image_update (d : Descq) (i : ℕ) (x : Desc) :
    Desc.bare ∘ Function.update d.desc.slot i x = Function.update d.image i x.bare :=
  Function.comp_update ..

/-- A slot that `k < avail` descriptors lead to is not in flight. -/
theorem RingLaw.free {d : Descq} (h : RingLaw d) {b : Board Desc DescField}
    (hpub : b.pub = d.pidx) (hcidx : b.cidx = d.cidx) {k : ℕ} (hk : k ≤ d.avail) :
    ¬ d.ring.InFlight b (adv d.conf.rngsz d.pidx k) := by
  have ha := h.avail
  have hlt := h.pidx_lt
  unfold Ring.InFlight
  rw [hpub, hcidx]
  exact not_between_adv h.cidx_lt h.pidx_lt (show _ + k < d.conf.rngsz by
    show dist d.conf.rngsz d.cidx d.pidx + k < d.conf.rngsz
    omega)

/-- **What a piece of the code does to the ring**: its writes are in order on any board that shows
the queue before it, and lead to one that shows the queue after it. -/
structure Writes (d d' : Descq) (tr : List (Ev DescWrite)) : Prop where
  law : RingLaw d'
  conf : d'.conf = d.conf
  inOrder : ∀ b, Shows b d → ∃ b', Run d.ring.step d.ring.Ok b tr b' ∧ Shows b' d'

theorem Writes.same {d d' : Descq} (h : RingLaw d) (hs : SameRing d d') : Writes d d' [] :=
  ⟨h.congr hs, hs.conf, fun b hb => ⟨b, Run.nil, hb.congr hs⟩⟩

theorem ring_congr {d d' : Descq} (h : d'.conf = d.conf) : d'.ring = d.ring := by
  unfold Descq.ring
  rw [h]

theorem Writes.trans {d d' d'' : Descq} {tr tr' : List (Ev DescWrite)} (h : Writes d d' tr)
    (h' : Writes d' d'' tr') : Writes d d'' (tr ++ tr') := by
  refine ⟨h'.law, h'.conf.trans h.conf, ?_⟩
  intro b hb
  obtain ⟨b', hrun, hb'⟩ := h.inOrder b hb
  obtain ⟨b'', hrun', hb''⟩ := h'.inOrder b' hb'
  rw [ring_congr h.conf] at hrun'
  exact ⟨b'', hrun.append hrun', hb''⟩

/-- Posting `k` descriptors and ringing for them keeps the law. -/
theorem RingLaw.advance {d d' : Descq} (h : RingLaw d) {k : ℕ} (hconf : d'.conf = d.conf)
    (hcidx : d'.cidx = d.cidx) (hwb : d'.desc.wbCidx = d.desc.wbCidx)
    (hpidx : d'.pidx = adv d.conf.rngsz d.pidx k) (havail : d'.avail + k = d.avail)
    (hrung : d'.regs.pidx = d'.pidx) : RingLaw d' := by
  have ha := h.avail
  have hp := h.pidx_lt
  have hle := h.wb_le
  have hdist := dist_adv_right (k := k) h.cidx_lt h.pidx_lt (by omega)
  refine ⟨?_, ?_, ?_, ?_, ?_, ?_, hrung⟩
  · rw [hconf]
    exact h.kind
  · rw [hconf, hpidx]
    exact adv_lt (by omega)
  · rw [hconf, hcidx]
    exact h.cidx_lt
  · rw [hconf, hwb]
    exact h.wb_lt
  · rw [hconf, hcidx, hpidx, hdist]
    omega
  · rw [hconf, hcidx, hwb, hpidx, hdist]
    omega

/-- The doorbell for `k` descriptors whose fields are stored is in order. -/
theorem RingLaw.bell {d : Descq} (h : RingLaw d) {b : Board Desc DescField} {k : ℕ}
    (hpub : b.pub = d.pidx) (hcidx : b.cidx = d.cidx) (hk : k ≤ d.avail)
    (hfresh : ∀ j < k, ∀ x ∈ descFields d.conf.st, (adv d.conf.rngsz d.pidx j, x) ∈ b.fresh) :
    d.ring.Ok b (.bell (adv d.conf.rngsz d.pidx k)) := by
  have ha := h.avail
  have hp := h.pidx_lt
  have hdist : dist d.conf.rngsz d.pidx (adv d.conf.rngsz d.pidx k) = k :=
    dist_adv hp (by omega)
  refine ⟨adv_lt (show 0 < d.conf.rngsz by omega), ?_, ?_⟩
  · rw [hpub, hcidx]
    show dist d.conf.rngsz _ _ + dist d.conf.rngsz _ _ < d.conf.rngsz
    rw [hdist]
    omega
  · rw [hpub]
    intro i hi
    obtain ⟨j, hj, rfl⟩ := (between_iff hp).mp hi
    exact hfresh j (hdist ▸ hj)

/-! ## `descq_mm_proc_request` -/

/-- **All along the loops**: the descriptors so far are in the free slots behind `pidx`, every
field of theirs is stored, and the doorbell is as it was. -/
structure MmFilled (d : Descq) (f : Fill) (b : Board Desc DescField) : Prop where
  frame : f.d = d.withRing f.d.desc.slot f.d.pidx d.regs
  pidx : f.d.pidx = adv d.conf.rngsz d.pidx f.descCnt
  le : f.descCnt ≤ d.avail
  last : f.descEnd =
    if f.descCnt = 0 then none else some (adv d.conf.rngsz d.pidx (f.descCnt - 1))
  slot : b.slot = f.d.image
  pub : b.pub = d.pidx
  wb : b.wb = d.desc.wbCidx
  cidx : b.cidx = d.cidx
  fresh : ∀ j < f.descCnt, ∀ x ∈ descFields false, (adv d.conf.rngsz d.pidx j, x) ∈ b.fresh

theorem mmPutStores_act (f : Fill) (len addr : ℕ) (x : Desc) :
    (mmPutStores f len addr).foldl (fun x w => w.act x) x =
      { x with
        mm :=
          if f.d.conf.c2h then
            { srcAddr := f.epAddr, dstAddr := addr, flagLen := len ||| 1 <<< sDescFDv }
          else { dstAddr := f.epAddr, srcAddr := addr, flagLen := len ||| 1 <<< sDescFDv } } := by
  unfold mmPutStores
  cases f.d.conf.c2h
  · rfl
  · rfl

theorem mmPutStores_fields (f : Fill) (len addr : ℕ) :
    ∀ x ∈ descFields false, ∃ w ∈ mmPutStores f len addr, w.field = x := by
  intro x hx
  refine List.mem_map.mp (?_ : x ∈ (mmPutStores f len addr).map DescWrite.field)
  unfold mmPutStores
  cases f.d.conf.c2h
  · have hall : ∀ x ∈ descFields false,
        x ∈ [DescField.rsvd1, .rsvd0, .dstAddr, .srcAddr, .flagLen, .flagLen] := by decide
    exact hall x hx
  · have hall : ∀ x ∈ descFields false,
        x ∈ [DescField.rsvd1, .rsvd0, .srcAddr, .dstAddr, .flagLen, .flagLen] := by decide
    exact hall x hx

/-- A put changes the ring and `pidx` alone. -/
theorem putDesc_frame {d e : Descq} {r : Regs} (h : e = d.withRing e.desc.slot e.pidx r)
    (x : Desc) : e.putDesc x = d.withRing (e.putDesc x).desc.slot (e.putDesc x).pidx r := by
  rw [h]
  rfl

theorem pidxUpdate_frame {d e : Descq} {r : Regs} (h : e = d.withRing e.desc.slot e.pidx r)
    (p : ℕ) : e.pidxUpdate p = d.withRing (e.pidxUpdate p).desc.slot (e.pidxUpdate p).pidx
      (e.pidxUpdate p).regs := by
  rw [h]
  rfl

theorem MmFilled.put {d : Descq} (h : RingLaw d) {f : Fill}
    {b : Board Desc DescField} (hf : MmFilled d f b) (hlt : f.descCnt < d.avail)
    (id len addr : ℕ) :
    ∃ b', Run d.ring.step d.ring.Ok b (mmPutWrites f len addr) b' ∧
      MmFilled d (mmPut id f len addr) b' := by
  have hfree := h.free hf.pub hf.cidx hlt.le
  rw [← hf.pidx] at hfree
  refine ⟨_, run_stores hfree (mmPutStores f len addr), ?_⟩
  have hconf : f.d.conf = d.conf := by rw [hf.frame]; rfl
  have hlt' : f.d.pidx < f.d.conf.rngsz := by
    rw [hconf, hf.pidx]
    exact adv_lt (by have := h.pidx_lt; omega)
  refine ⟨?_, ?_, hlt, ?_, ?_, hf.pub, hf.wb, hf.cidx, ?_⟩
  · exact putDesc_frame hf.frame _
  · show (if f.d.pidx + 1 = f.d.conf.rngsz then 0 else f.d.pidx + 1) = _
    rw [← adv_one hlt', hconf, hf.pidx, adv_adv]
    rfl
  · show some f.d.pidx = if f.descCnt + 1 = 0 then none else some _
    rw [if_neg (Nat.succ_ne_zero _), hf.pidx]
    rfl
  · show Function.update b.slot f.d.pidx ((mmPutStores f len addr).foldl _ (b.slot f.d.pidx)) = _
    have hnew : (mmPut id f len addr).d.image = Function.update f.d.image f.d.pidx _ :=
      image_update f.d f.d.pidx _
    rw [hf.slot]
    exact (congrArg _ (mmPutStores_act f len addr _)).trans hnew.symm
  · intro j hj x hx
    by_cases hlast : j = f.descCnt
    · obtain ⟨w, hw, rfl⟩ := mmPutStores_fields f len addr x hx
      rw [hlast, ← hf.pidx]
      exact mem_stored hw
    · have hj : j < f.descCnt + 1 := hj
      exact List.mem_append_right _ (hf.fresh j (by omega) x hx)

/-- What a put keeps, together with the trace so far, the loop over an entry keeps. -/
theorem mmFillEntry_keeps {P : Fill → List (Ev DescWrite) → Prop} {id descMax : ℕ}
    (hput : ∀ f tr len addr, P f tr → f.descCnt < descMax →
      P (mmPut id f len addr) (tr ++ mmPutWrites f len addr))
    {room tlen addr : ℕ} {f : Fill} {tr : List (Ev DescWrite)} (hroom : f.descCnt + room ≤ descMax)
    (h : P f tr) :
    P (mmFillEntry id room tlen addr f) (tr ++ mmFillEntryWrites id room tlen addr f) := by
  induction room generalizing tlen addr f tr with
  | zero =>
      rw [mmFillEntryWrites, List.append_nil]
      exact h
  | succ room ih =>
      rw [mmFillEntry, mmFillEntryWrites]
      by_cases h0 : tlen = 0
      · rw [if_pos h0, if_pos h0, List.append_nil]
        exact h
      · rw [if_neg h0, if_neg h0]
        simp only
        rw [← List.append_assoc]
        refine ih ?_ (hput f tr _ _ h (by omega))
        show f.descCnt + 1 + room ≤ descMax
        omega

theorem mmFillSgl_keeps {P : Fill → List (Ev DescWrite) → Prop} {id descMax : ℕ}
    (hput : ∀ f tr len addr, P f tr → f.descCnt < descMax →
      P (mmPut id f len addr) (tr ++ mmPutWrites f len addr))
    {sgl : List SwSg} {off : ℕ} {f : Fill} {tr : List (Ev DescWrite)} (h : P f tr) :
    P (mmFillSgl id descMax sgl off f) (tr ++ mmFillSglWrites id descMax sgl off f) := by
  induction sgl generalizing off f tr with
  | nil =>
      rw [mmFillSglWrites, List.append_nil]
      exact h
  | cons sg sgl ih =>
      rw [mmFillSgl, mmFillSglWrites]
      by_cases hlt : f.descCnt < descMax
      · rw [if_pos hlt, if_pos hlt]
        simp only [skipOffset_eq]
        rw [← List.append_assoc]
        exact ih (mmFillEntry_keeps hput (by omega) h)
      · rw [if_neg hlt, if_neg hlt, List.append_nil]
        exact h

/-- The trace of the loops so far. -/
def MmTrace (d : Descq) (b : Board Desc DescField) (f : Fill) (tr : List (Ev DescWrite)) : Prop :=
  ∃ b', Run d.ring.step d.ring.Ok b tr b' ∧ MmFilled d f b'

theorem MmTrace.put {d : Descq} (h : RingLaw d) {f : Fill} {b : Board Desc DescField}
    {tr : List (Ev DescWrite)} (ht : MmTrace d b f tr) (hlt : f.descCnt < d.avail)
    (id len addr : ℕ) : MmTrace d b (mmPut id f len addr) (tr ++ mmPutWrites f len addr) := by
  obtain ⟨b', hrun, hf⟩ := ht
  obtain ⟨b'', hrun', hf'⟩ := hf.put h hlt id len addr
  exact ⟨b'', hrun.append hrun', hf'⟩

theorem image_mmSetFlag (d : Descq) (i bit : ℕ) :
    (d.mmSetFlag i bit).image
      = Function.update d.image i ((DescWrite.or .flagLen (1 <<< bit)).act (d.image i)) :=
  image_update d i _

theorem MmFilled.start {d : Descq} (h : RingLaw d) {b : Board Desc DescField} (hb : Shows b d)
    (epAddr : ℕ) : MmFilled d { d := d, epAddr := epAddr } b :=
  ⟨rfl, (adv_zero h.pidx_lt).symm, Nat.zero_le _, rfl, hb.slot, hb.pub.trans h.rung, hb.wb,
    hb.cidx, fun j hj => absurd hj (Nat.not_lt_zero j)⟩

theorem MmFilled.rest {d : Descq} {f : Fill} {b : Board Desc DescField} (hf : MmFilled d f b) :
    f.d.conf = d.conf ∧ f.d.avail = d.avail ∧ f.d.cidx = d.cidx ∧
      f.d.desc.wbCidx = d.desc.wbCidx ∧ f.d.regs = d.regs := by
  rw [hf.frame]
  exact ⟨rfl, rfl, rfl, rfl, rfl⟩

/-- The loops have posted nothing. -/
theorem MmFilled.idle {d : Descq} (h : RingLaw d) {f : Fill} {b : Board Desc DescField}
    (hf : MmFilled d f b) (h0 : f.descCnt = 0) : RingLaw f.d ∧ Shows b f.d := by
  obtain ⟨hconf, havail, hcidx, hwb, hregs⟩ := hf.rest
  have hpidx := hf.pidx
  rw [h0] at hpidx
  have hrung : f.d.regs.pidx = f.d.pidx := by
    rw [hregs, hpidx, adv_zero h.pidx_lt]
    exact h.rung
  exact ⟨h.advance hconf hcidx hwb hpidx havail hrung,
    hf.slot, by rw [hregs, h.rung]; exact hf.pub, hf.wb.trans hwb.symm, hf.cidx.trans hcidx.symm⟩

/-- The loops stop after `k` descriptors, the flags are patched and the doorbell is written. -/
theorem MmFilled.finish {d : Descq} (h : RingLaw d) (hst : d.conf.st = false) {f : Fill}
    {b : Board Desc DescField} (hf : MmFilled d f b) (cb : SgtReqCb) :
    let last := adv d.conf.rngsz d.pidx (f.descCnt - 1)
    let d' := chargeRequest ((f.d.mmSetFlag last sDescFEop).mmSetFlag d.pidx sDescFSop) cb
      f.descCnt f.dataCnt
    RingLaw (d'.pidxUpdate d'.pidx) ∧ ∃ b', Run d.ring.step d.ring.Ok b
      [.store last (.or .flagLen (1 <<< sDescFEop)), .store d.pidx (.or .flagLen (1 <<< sDescFSop)),
        .bell f.d.pidx] b' ∧ Shows b' (d'.pidxUpdate d'.pidx) := by
  intro last d'
  have hframe : SameRing
      { (f.d.mmSetFlag last sDescFEop).mmSetFlag d.pidx sDescFSop with
        avail := f.d.avail - f.descCnt } d' := chargeRequest_frame _ cb f.descCnt f.dataCnt
  obtain ⟨hconf, havail, hcidx, hwb, -⟩ := hf.rest
  have hpidx : d'.pidx = adv d.conf.rngsz d.pidx f.descCnt := hframe.pidx.trans hf.pidx
  have hle := hf.le
  constructor
  · refine h.advance (hframe.conf.trans hconf) (hframe.cidx.trans hcidx) ?_ hpidx ?_ rfl
    · exact (congrArg DescRing.wbCidx hframe.desc).trans hwb
    · show d'.avail + f.descCnt = d.avail
      rw [hframe.avail]
      show f.d.avail - f.descCnt + f.descCnt = d.avail
      omega
  · -- the two patches, then the doorbell
    have hlast : ¬ d.ring.InFlight b last := h.free hf.pub hf.cidx (by omega)
    have hfirst := h.free hf.pub hf.cidx (Nat.zero_le _)
    rw [adv_zero h.pidx_lt] at hfirst
    have heop := run_stores hlast [.or .flagLen (1 <<< sDescFEop)]
    have hsop := run_stores (R := d.ring)
      (b := d.ring.stored b last [.or .flagLen (1 <<< sDescFEop)]) hfirst
      [.or .flagLen (1 <<< sDescFSop)]
    have hbell := h.bell (b := d.ring.stored
        (d.ring.stored b last [.or .flagLen (1 <<< sDescFEop)]) d.pidx
        [.or .flagLen (1 <<< sDescFSop)]) hf.pub hf.cidx hle (by
      intro j hj x hx
      rw [hst] at hx
      exact List.mem_append_right _ (List.mem_append_right _ (hf.fresh j hj x hx)))
    rw [← hf.pidx] at hbell
    refine ⟨_, (heop.append hsop).append (Run.one hbell), ?_, ?_, ?_, ?_⟩
    · -- board and queue have the same two slots updated, one after the other
      let eop := (DescWrite.or .flagLen (1 <<< sDescFEop)).act
      let sop := (DescWrite.or .flagLen (1 <<< sDescFSop)).act
      show Function.update (Function.update b.slot last (eop (b.slot last))) d.pidx
          (sop (Function.update b.slot last (eop (b.slot last)) d.pidx))
        = Desc.bare ∘ d'.desc.slot
      have himage : Desc.bare ∘ d'.desc.slot
          = ((f.d.mmSetFlag last sDescFEop).mmSetFlag d.pidx sDescFSop).image := by
        rw [hframe.desc]
        rfl
      rw [himage, image_mmSetFlag, image_mmSetFlag, hf.slot]
    · exact hframe.pidx.symm
    · exact hf.wb.trans ((congrArg DescRing.wbCidx hframe.desc).trans hwb).symm
    · exact hf.cidx.trans (hframe.cidx.trans hcidx).symm

/-- **`descq_mm_proc_request`** as writes. -/
theorem descqMmProcRequest_writes {d : Descq} (h : RingLaw d) (hst : d.conf.st = false)
    (cb : SgtReqCb) :
    Writes d (descqMmProcRequest d cb).1 (descqMmProcRequestWrites d cb) := by
  unfold descqMmProcRequest descqMmProcRequestWrites
  simp only
  by_cases h0 : d.avail = 0
  · rw [if_pos h0, if_pos h0]
    exact Writes.same h (SameRing.refl d)
  rw [if_neg h0, if_neg h0]
  cases hr : resumeAt cb with
  | none => exact Writes.same h (SameRing.refl d)
  | some p =>
      obtain ⟨i, off⟩ := p
      simp only
      generalize hf₀ : ({ d := d, epAddr := u64 (cb.req.epAddr + cb.offset) } : Fill) = f₀
      have hloop : ∀ b, Shows b d → MmTrace d b (mmFillSgl cb.id d.avail (cb.req.sgl.drop i) off f₀)
          (mmFillSglWrites cb.id d.avail (cb.req.sgl.drop i) off f₀) := by
        intro b hb
        have hnil : MmTrace d b f₀ [] := by
          rw [← hf₀]
          exact ⟨b, Run.nil, MmFilled.start h hb _⟩
        exact mmFillSgl_keeps (fun f tr len addr hf hlt => hf.put h hlt cb.id len addr) hnil
      generalize mmFillSgl cb.id d.avail (cb.req.sgl.drop i) off f₀ = f at hloop ⊢
      obtain ⟨b₀, -, hf⟩ := hloop d.board (shows_board d)
      have hend := hf.last
      -- no slot was filled: no flags and no doorbell
      by_cases hk : f.descCnt = 0
      · rw [if_pos hk] at hend
        simp only [hend, List.append_nil]
        refine ⟨(hf.idle h hk).1, hf.rest.1, ?_⟩
        intro b hb
        obtain ⟨b', hrun, hf'⟩ := hloop b hb
        exact ⟨b', hrun, (hf'.idle h hk).2⟩
      · rw [if_neg hk] at hend
        simp only [hend, descqC2hPidxUpdate, descqH2cPidxUpdate, ite_self]
        refine ⟨(hf.finish h hst cb).1, ?_, ?_⟩
        · exact (chargeRequest_conf _ _ _ _).trans hf.rest.1
        · intro b hb
          obtain ⟨b', hrun, hf'⟩ := hloop b hb
          obtain ⟨b'', hrun', hshows⟩ := (hf'.finish h hst cb).2
          exact ⟨b'', hrun.append hrun', hshows⟩

/-! ## `descq_proc_st_h2c_request` -/

/-- **All along the loops**: the descriptors so far are rung for. -/
structure StFilled (d : Descq) (f : Fill) (b : Board Desc DescField) : Prop where
  frame : f.d = d.withRing f.d.desc.slot f.d.pidx f.d.regs
  pidx : f.d.pidx = adv d.conf.rngsz d.pidx f.descCnt
  le : f.descCnt ≤ d.avail
  rung : f.d.regs.pidx = f.d.pidx
  shows : Shows b f.d

/-- The trace of the loops so far. -/
def StTrace (d : Descq) (b : Board Desc DescField) (f : Fill) (tr : List (Ev DescWrite)) : Prop :=
  ∃ b', Run d.ring.step d.ring.Ok b tr b' ∧ StFilled d f b'

theorem stPutStores_act (eop : Bool) (len addr : ℕ) (x : Desc) :
    (stPutStores eop len addr).foldl (fun x w => w.act x) x =
      { x with
        h2c :=
          { srcAddr := addr
            len := u16 len
            pldLen := u16 len
            cdhFlags := x.h2c.cdhFlags ||| sH2cDescFZeroCdh
            flags := if eop then x.h2c.flags ||| sH2cDescFEop else x.h2c.flags } } := by
  unfold stPutStores
  cases eop
  · rfl
  · rfl

theorem stPutStores_fields (eop : Bool) (len addr : ℕ) :
    ∀ x ∈ descFields true, ∃ w ∈ stPutStores eop len addr, w.field = x := by
  intro x hx
  refine List.mem_map.mp (?_ : x ∈ (stPutStores eop len addr).map DescWrite.field)
  unfold stPutStores
  rw [List.map_append]
  exact List.mem_append_left _ hx

theorem StFilled.rest {d : Descq} {f : Fill} {b : Board Desc DescField} (hf : StFilled d f b) :
    f.d.conf = d.conf ∧ f.d.avail = d.avail ∧ f.d.cidx = d.cidx ∧
      f.d.desc.wbCidx = d.desc.wbCidx := by
  rw [hf.frame]
  exact ⟨rfl, rfl, rfl, rfl⟩

/-- The queue with what is posted taken off `avail` obeys the ring law. -/
theorem StFilled.law {d : Descq} (h : RingLaw d) {f : Fill} {b : Board Desc DescField}
    (hf : StFilled d f b) : RingLaw { f.d with avail := f.d.avail - f.descCnt } := by
  obtain ⟨hconf, havail, hcidx, hwb⟩ := hf.rest
  have hle := hf.le
  refine h.advance hconf hcidx hwb hf.pidx ?_ hf.rung
  show f.d.avail - f.descCnt + f.descCnt = d.avail
  omega

theorem StFilled.put {d : Descq} (h : RingLaw d) (hst : d.conf.st = true) {f : Fill}
    {b : Board Desc DescField} (hf : StFilled d f b) (hlt : f.descCnt < d.avail) (id : ℕ)
    (eop : Bool) (len addr : ℕ) :
    ∃ b', Run d.ring.step d.ring.Ok b (stPutWrites id eop f len addr) b' ∧
      StFilled d (stPutOf id eop f len addr) b' := by
  obtain ⟨hconf, havail, hcidx, hwb⟩ := hf.rest
  have hlaw := hf.law h
  have hring : Descq.ring { f.d with avail := f.d.avail - f.descCnt } = d.ring := ring_congr hconf
  have hplt : f.d.pidx < f.d.conf.rngsz := hlaw.pidx_lt
  have hpub : b.pub = f.d.pidx := hf.shows.pub.trans hf.rung
  have hfree := hlaw.free (b := b) hpub hf.shows.cidx (Nat.zero_le _)
  rw [hring] at hfree
  -- the slot is not the device's until the doorbell behind it
  have hfree : ¬ d.ring.InFlight b f.d.pidx := by
    have hzero : adv f.d.conf.rngsz f.d.pidx 0 = f.d.pidx := adv_zero hplt
    rwa [← hzero]
  have hbell := hlaw.bell (b := d.ring.stored b f.d.pidx (stPutStores eop len addr)) (k := 1) hpub
    hf.shows.cidx (show 1 ≤ f.d.avail - f.descCnt by omega) (by
      intro j hj x hx
      obtain rfl : j = 0 := by omega
      rw [show f.d.conf.st = true from (congrArg QueueConf.st hconf).trans hst] at hx
      obtain ⟨w, hw, rfl⟩ := stPutStores_fields eop len addr x hx
      have hzero : adv f.d.conf.rngsz f.d.pidx 0 = f.d.pidx := adv_zero hplt
      rw [hzero]
      exact mem_stored hw)
  have hnext : (stPutOf id eop f len addr).d.pidx = adv f.d.conf.rngsz f.d.pidx 1 :=
    (adv_one hplt).symm
  rw [hring] at hbell
  refine ⟨_, (run_stores hfree _).append (Run.one ?_), ?_⟩
  · rw [hnext]
    exact hbell
  · refine ⟨?_, ?_, hlt, rfl, ?_, rfl, ?_, ?_⟩
    · exact pidxUpdate_frame (putDesc_frame hf.frame _) _
    · rw [hnext, hconf, hf.pidx, adv_adv]
      rfl
    · show Function.update b.slot f.d.pidx ((stPutStores eop len addr).foldl _ (b.slot f.d.pidx))
        = _
      have hnew : (stPutOf id eop f len addr).d.image = Function.update f.d.image f.d.pidx _ :=
        image_update f.d f.d.pidx _
      rw [hf.shows.slot]
      exact (congrArg _ (stPutStores_act eop len addr _)).trans hnew.symm
    · exact hf.shows.wb
    · exact hf.shows.cidx

theorem StTrace.put {d : Descq} (h : RingLaw d) (hst : d.conf.st = true) {f : Fill}
    {b : Board Desc DescField} {tr : List (Ev DescWrite)} (ht : StTrace d b f tr)
    (hlt : f.descCnt < d.avail) (id : ℕ) (eop : Bool) (len addr : ℕ) :
    StTrace d b (stPutOf id eop f len addr) (tr ++ stPutWrites id eop f len addr) := by
  obtain ⟨b', hrun, hf⟩ := ht
  obtain ⟨b'', hrun', hf'⟩ := hf.put h hst hlt id eop len addr
  exact ⟨b'', hrun.append hrun', hf'⟩

/-- What a put keeps, together with the trace so far, the loop over an entry keeps. -/
theorem stFillEntry_keeps {P : Fill → List (Ev DescWrite) → Prop} {pg id descMax : ℕ} {eop : Bool}
    (hput : ∀ f tr eop len addr, P f tr → f.descCnt < descMax →
      P (stPutOf id eop f len addr) (tr ++ stPutWrites id eop f len addr))
    {room tlen addr : ℕ} {f : Fill} {tr : List (Ev DescWrite)} (hroom : f.descCnt + room ≤ descMax)
    (h : P f tr) :
    P (stFillEntryOf pg id eop room tlen addr f)
      (tr ++ stFillEntryWrites pg id eop room tlen addr f) := by
  induction room generalizing tlen addr f tr with
  | zero =>
      rw [stFillEntryWrites, List.append_nil]
      exact h
  | succ room ih =>
      rw [stFillEntryOf, stFillEntryWrites]
      have hone := hput f tr eop (min tlen pg) addr h (by omega)
      rw [← List.append_assoc]
      by_cases hdone : tlen - min tlen pg = 0
      · rw [if_pos hdone, if_pos hdone, List.append_nil]
        exact hone
      · rw [if_neg hdone, if_neg hdone]
        refine ih ?_ hone
        show f.descCnt + 1 + room ≤ descMax
        omega

theorem stFillSgl_keeps {P : Fill → List (Ev DescWrite) → Prop} {pg id descMax : ℕ}
    (hput : ∀ f tr eop len addr, P f tr → f.descCnt < descMax →
      P (stPutOf id eop f len addr) (tr ++ stPutWrites id eop f len addr))
    {sgl : List SwSg} {off : ℕ} {f : Fill} {tr : List (Ev DescWrite)} (h : P f tr) :
    P (stFillSglOf pg id descMax sgl off f) (tr ++ stFillSglWrites pg id descMax sgl off f) := by
  induction sgl generalizing off f tr with
  | nil =>
      rw [stFillSglWrites, List.append_nil]
      exact h
  | cons sg sgl ih =>
      rw [stFillSglOf, stFillSglWrites]
      by_cases hlt : f.descCnt < descMax
      · rw [if_pos hlt, if_pos hlt]
        simp only [skipOffset_eq]
        rw [← List.append_assoc]
        exact ih (stFillEntry_keeps hput (by omega) h)
      · rw [if_neg hlt, if_neg hlt, List.append_nil]
        exact h

theorem image_h2cSetFlag (d : Descq) (i mask : ℕ) :
    (d.h2cSetFlag i mask).image
      = Function.update d.image i ((DescWrite.or .h2cFlags mask).act (d.image i)) :=
  image_update d i _

/-- The flag of the first descriptor goes to the slot at `pidx`. -/
theorem StTrace.start {d : Descq} (h : RingLaw d) {b : Board Desc DescField} (hb : Shows b d)
    (cb : SgtReqCb) :
    StTrace d b { d := if cb.offset ≠ 0 then d else d.h2cSetFlag d.pidx sH2cDescFSop }
      (if cb.offset ≠ 0 then [] else [.store d.pidx (.or .h2cFlags sH2cDescFSop)]) := by
  by_cases hoff : cb.offset ≠ 0
  · rw [if_pos hoff, if_pos hoff]
    exact ⟨b, Run.nil, rfl, (adv_zero h.pidx_lt).symm, Nat.zero_le _, h.rung, hb⟩
  · rw [if_neg hoff, if_neg hoff]
    have hfree := h.free (hb.pub.trans h.rung) hb.cidx (Nat.zero_le _)
    rw [adv_zero h.pidx_lt] at hfree
    refine ⟨_, run_stores hfree [.or .h2cFlags sH2cDescFSop], rfl, (adv_zero h.pidx_lt).symm,
      Nat.zero_le _, h.rung, ?_, hb.pub, hb.wb, hb.cidx⟩
    show Function.update b.slot d.pidx ((DescWrite.or .h2cFlags sH2cDescFSop).act (b.slot d.pidx))
      = _
    rw [hb.slot]
    exact (image_h2cSetFlag d d.pidx sH2cDescFSop).symm

/-- **`descq_proc_st_h2c_request`** as writes. -/
theorem descqProcStH2cRequest_writes (pg : ℕ) {d : Descq} (h : RingLaw d)
    (hst : d.conf.st = true) (cb : SgtReqCb) :
    Writes d (descqProcStH2cRequestOf pg d cb).1 (descqProcStH2cRequestWrites pg d cb) := by
  unfold descqProcStH2cRequestOf descqProcStH2cRequestWrites
  simp only
  by_cases h0 : d.avail = 0
  · rw [if_pos h0, if_pos h0]
    exact Writes.same h (SameRing.refl d)
  rw [if_neg h0, if_neg h0]
  cases hr : resumeAt cb with
  | none => exact Writes.same h (SameRing.refl d)
  | some p =>
      obtain ⟨i, off⟩ := p
      simp only
      generalize hf₀ : ({ d := if cb.offset ≠ 0 then d else d.h2cSetFlag d.pidx sH2cDescFSop } :
        Fill) = f₀
      generalize htr₀ : (if cb.offset ≠ 0 then []
        else [Ev.store d.pidx (DescWrite.or .h2cFlags sH2cDescFSop)]) = tr₀
      have hloop : ∀ b, Shows b d →
          StTrace d b (stFillSglOf pg cb.id d.avail (cb.req.sgl.drop i) off f₀)
            (tr₀ ++ stFillSglWrites pg cb.id d.avail (cb.req.sgl.drop i) off f₀) := by
        intro b hb
        have hstart := StTrace.start h hb cb
        rw [hf₀, htr₀] at hstart
        exact stFillSgl_keeps (fun f tr eop len addr hf hlt => hf.put h hst hlt cb.id eop len addr)
          hstart
      generalize stFillSglOf pg cb.id d.avail (cb.req.sgl.drop i) off f₀ = f at hloop ⊢
      obtain ⟨b₀, -, hf⟩ := hloop d.board (shows_board d)
      have hframe := chargeRequest_frame f.d cb f.descCnt f.dataCnt
      refine ⟨(hf.law h).congr hframe, hframe.conf.trans hf.rest.1, ?_⟩
      intro b hb
      obtain ⟨b', hrun, hf'⟩ := hloop b hb
      have hshows : Shows b' { f.d with avail := f.d.avail - f.descCnt } :=
        ⟨hf'.shows.slot, hf'.shows.pub, hf'.shows.wb, hf'.shows.cidx⟩
      exact ⟨b', hrun, hshows.congr hframe⟩

/-! ## Passes and writebacks -/

theorem procSgtRequest_writes (pg : ℕ) {d : Descq} (h : RingLaw d) (cb : SgtReqCb) :
    Writes d (qdmaDescqProcSgtRequestOf pg d cb).1 (qdmaDescqProcSgtRequestWrites pg d cb) := by
  have hkind := h.kind
  unfold qdmaDescqProcSgtRequestOf qdmaDescqProcSgtRequestWrites
  cases hst : d.conf.st with
  | false => exact descqMmProcRequest_writes h hst cb
  | true =>
      rw [hst, Bool.true_and] at hkind
      rw [hkind]
      exact descqProcStH2cRequest_writes pg h hst cb

/-- **A worker pass** as writes. -/
theorem wrkProcLoop_writes (pg : ℕ) (cbs : List SgtReqCb) {d : Descq} (h : RingLaw d) :
    Writes d (wrkProcLoopOf pg cbs d) (wrkProcLoopWrites pg cbs d) := by
  induction cbs generalizing d with
  | nil => exact Writes.same h (SameRing.refl d)
  | cons cb cbs ih =>
      rw [wrkProcLoopOf, wrkProcLoopWrites]
      simp only
      have hcall := procSgtRequest_writes pg h cb
      generalize qdmaDescqProcSgtRequestOf pg d cb = r at hcall ⊢
      have hone : Writes d (if r.2 < 0 then qdmaSgtReqDone r.1 cb r.2 else r.1)
          (qdmaDescqProcSgtRequestWrites pg d cb) := by
        by_cases hrv : r.2 < 0
        · rw [if_pos hrv, ← List.append_nil (qdmaDescqProcSgtRequestWrites pg d cb)]
          exact hcall.trans (Writes.same hcall.law (sameRing_done r.1 cb r.2))
        · rw [if_neg hrv]
          exact hcall
      generalize (if r.2 < 0 then qdmaSgtReqDone r.1 cb r.2 else r.1) = d' at hone ⊢
      by_cases hfull : d'.avail = 0
      · rw [if_pos hfull, if_pos hfull, List.append_nil]
        exact hone
      · rw [if_neg hfull, if_neg hfull]
        exact hone.trans (ih hone.law)

theorem RingLaw.caughtUp {q : Descq} (h : RingLaw q) : RingLaw q.caughtUp := by
  have hwb := h.wb_le
  have havail := h.avail
  have hdist : dist q.conf.rngsz q.desc.wbCidx q.pidx
      = dist q.conf.rngsz q.cidx q.pidx - q.reported :=
    dist_add_dist h.cidx_lt h.wb_lt h.pidx_lt hwb
  refine ⟨h.kind, h.pidx_lt, h.wb_lt, h.wb_lt, ?_, ?_, h.rung⟩
  · show q.avail + q.reported + dist q.conf.rngsz q.desc.wbCidx q.pidx = q.conf.rngsz - 1
    unfold Descq.reported at *
    omega
  · show dist q.conf.rngsz q.desc.wbCidx q.desc.wbCidx ≤ _
    rw [dist_self]
    exact Nat.zero_le _

/-- **A writeback** as writes: `cidx` moves to what the device has reported, and the doorbell
publishes nothing new. -/
theorem descqMmNH2cWb_writes {d : Descq} (h : RingLaw d) :
    Writes d (descqMmNH2cWb d) (descqMmNH2cWbWrites d) := by
  by_cases hempty : d.pidx = d.cidx
  · rw [descqMmNH2cWb, descqMmNH2cWbWrites, if_pos hempty, if_pos hempty]
    exact Writes.same h (SameRing.refl d)
  by_cases hsame : d.desc.wbCidx = d.cidx
  · rw [descqMmNH2cWb, descqMmNH2cWbWrites, if_neg hempty, if_neg hempty]
    simp only [if_pos hsame]
    exact Writes.same h (SameRing.refl d)
  rw [descqMmNH2cWb_takes h.cidx_lt h.wb_lt h.rung hempty hsame, descqMmNH2cWbWrites,
    if_neg hempty]
  simp only [if_neg hsame]
  have hframe := sameRing_reqUpdatePend d.caughtUp d.reported
  refine ⟨h.caughtUp.congr hframe, hframe.conf, ?_⟩
  intro b hb
  have hpub : b.pub = d.pidx := hb.pub.trans h.rung
  have hcredit : d.ring.Ok b (.credit d.desc.wbCidx) := hb.wb.symm
  have hbell := h.caughtUp.bell (b := d.ring.step b (.credit d.desc.wbCidx)) (k := 0) hpub rfl
    (Nat.zero_le _) (fun j hj => absurd hj (Nat.not_lt_zero j))
  have hzero : adv d.caughtUp.conf.rngsz d.caughtUp.pidx 0 = d.pidx := adv_zero h.pidx_lt
  rw [hzero] at hbell
  refine ⟨_, Run.snoc (Run.one hcredit) hbell, Shows.congr ?_ hframe⟩
  exact ⟨hb.slot, h.rung.symm, hb.wb, rfl⟩

/-! ## Runs -/

/-- One step of the system, on a kernel with pages of `pg` bytes. -/
def Sys.stepOf (pg : ℕ) (s : Sys) : Label → Sys
  | .worker => { s with q := qdmaThreadWrkProcOf pg s.q }
  | l => s.step l

/-- The writes of a step: what the device reports, and what the driver does about it. -/
def Sys.writes (pg : ℕ) (s : Sys) : Label → List (Ev DescWrite)
  | .worker => qdmaThreadWrkProcWrites pg s.q
  | .hw c => [.report c]
  | .wb => descqMmNH2cWbWrites s.q
  | _ => []

/-- The system and the trace of its writes. -/
structure SysTrace where
  s : Sys
  tr : List (Ev DescWrite) := []

/-- One step. -/
def SysTrace.step (pg : ℕ) (t : SysTrace) (l : Label) : SysTrace :=
  { s := t.s.stepOf pg l, tr := t.tr ++ t.s.writes pg l }

/-- What may happen is what may happen to the system. -/
def SysTrace.Legal (t : SysTrace) (l : Label) : Prop := Qdma.Legal t.s l

instance (t : SysTrace) (l : Label) : Decidable (t.Legal l) := by
  unfold SysTrace.Legal
  infer_instance

theorem RingLaw.hw {s : Sys} {c : ℕ} (h : RingLaw s.q) (hok : Legal s (.hw c)) :
    Writes s.q (s.hw c).q [.report c] :=
  ⟨⟨h.kind, h.pidx_lt, h.cidx_lt, hok.1, h.avail,
      dist_le_dist h.cidx_lt h.wb_lt hok.1 h.pidx_lt h.wb_le hok.2, h.rung⟩, rfl,
    fun _ hb => ⟨_, Run.one hok.1, hb.slot, hb.pub, rfl, hb.cidx⟩⟩

/-- **Every legal step** as writes. -/
theorem sys_writes (pg : ℕ) {s : Sys} {l : Label} (h : RingLaw s.q) (hok : Legal s l) :
    Writes s.q (s.stepOf pg l).q (s.writes pg l) := by
  cases l with
  | submit req mapped =>
      refine Writes.same h ?_
      show SameRing s.q (s.submit req mapped).q
      rw [submit_q]
      exact sameRing_submit _ _ _ _
  | worker => exact wrkProcLoop_writes pg s.q.workList h
  | hw c => exact h.hw hok
  | wb => exact descqMmNH2cWb_writes h
  | wait id => exact Writes.same h (sameRing_wait s.q id)

/-- **Every run** as writes. -/
theorem sysTrace_writes (pg : ℕ) {q : Descq} (h : RingLaw q) {evs : List Label} {t : SysTrace}
    (hrun : Run (SysTrace.step pg) SysTrace.Legal { s := { q := q } } evs t) :
    Writes q t.s.q t.tr := by
  induction hrun with
  | nil => exact Writes.same h (SameRing.refl q)
  | snoc _ hok ih => exact ih.trans (sys_writes pg ih.law hok)

/-- **Descriptors are final before they are published**, in the trace of every run of a queue just
started, and the trace leads to the ring the run leads to. -/
theorem descs_final {d : Descq} {env : StartEnv} {csr : GlobalCsrConf}
    (hcsr : env.csr = some csr) (h2 : 2 ≤ csr.ringSz d.conf.descRngSzIdx)
    (h64 : csr.ringSz d.conf.descRngSzIdx ≤ 65536)
    (hkind : (d.conf.st && d.conf.c2h) = false) (hok : (descqStart d env).2 = 0) (pg : ℕ)
    {evs : List Label} {t : SysTrace}
    (hrun : Run (SysTrace.step pg) SysTrace.Legal
      { s := { q := (descqStart d env).1 } } evs t) :
    (descqStart d env).1.ring.Final (descqStart d env).1.board t.tr ∧
      Shows ((descqStart d env).1.ring.after (descqStart d env).1.board t.tr) t.s.q := by
  have hlaw := (ringInv_start hcsr h2 h64 hkind hok).law
  obtain ⟨b, htrace, hshows⟩ := (sysTrace_writes pg hlaw hrun).inOrder _ (shows_board _)
  constructor
  · refine Ring.Final.of_run ⟨?_, hlaw.wb_lt, hlaw.cidx_lt⟩ htrace
    rw [show (descqStart d env).1.board.pub = _ from hlaw.rung]
    exact hlaw.pidx_lt
  · rw [htrace.eq_foldl] at hshows
    exact hshows

/-- Two writes, their writeback, and two more that wrap. -/
def wrapRun : List Label :=
  [.submit (writeReq 8) true, .submit (writeReq 8) true, .worker, .hw 2, .wb,
    .submit (writeReq 8) true, .submit (writeReq 8) true, .worker]

theorem descs_final_wrap :
    let t := wrapRun.foldl (SysTrace.step pageSize) { s := startedSys false 4 }
    t.tr.length = 39 ∧ (startedSys false 4).q.ring.Final (startedSys false 4).q.board t.tr ∧
      Shows ((startedSys false 4).q.ring.after (startedSys false 4).q.board t.tr) t.s.q :=
  ⟨by decide +kernel,
    @descs_final (addedQueue false) (goodStart (csrOf 4)) (csrOf 4) rfl (by decide) (by decide) rfl
      (by decide +kernel) pageSize _ _ (Run.of_admits wrapRun (by decide +kernel))⟩

end Qdma
