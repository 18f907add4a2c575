/-
# Completing vectored I/O

Each segment that is queued is a work item with a control block of its own, which completes the
`kiocb` and frees itself.  `Kiocb.step` takes one operation from its submission on: the segments one
after the other, the handlers of those that are queued, in any order, the cancelling, and what
others do with the lock of the direction.

`aio_completes`: the operation completes once, if it has one segment and is not cancelled, or is
refused at its first.
-/
import Qdma.AioSubmit
import Qdma.Exec
import Qdma.UserPins

namespace Qdma

open Exec

/-! ## The operation -/

/-- How far `async_io_handler` is with a control block: it waits in the work queue; its handler
holds both locks; the transfer is done; the `kiocb` is completed; the buffer is unmapped. -/
inductive AioPhase where
  | queued
  | started
  | transferred (rv : ℤ)
  | completed
  | unmapped
  deriving DecidableEq

/-- `struct cdev_async_io`; `cancelling` is set while `caio_cancel` holds its lock. -/
structure Caio where
  work : AioWork
  cancel : Bool := false
  cancelling : Bool := false
  phase : AioPhase := .queued

/-- What is done: a control block is allocated, its transfer returns, the `kiocb` is completed, a
control block is freed, after what has been done with its pages, or accessed afterwards; the call
dies of a null pointer. -/
inductive AioEvent where
  | alloc (i : ℕ)
  | transfer (i : ℕ) (rv : ℤ)
  | complete (rv : ℤ)
  | free (i : ℕ) (log : List PinOp)
  | stray (i : ℕ)
  | oops

/-- A call of `cdev_aio_write` or `cdev_aio_read`. -/
structure AioCall where
  k : PageShift
  x : CdevFile
  write : Bool
  io : List IoVec
  pos : ℕ
  env : ℕ → AioEnv

/-- The `kiocb` of an operation, with its control blocks: how many segments are submitted, what the
call has returned, `ki->private`, and whether another operation holds the lock of the direction. -/
structure Kiocb where
  seg : ℕ := 0
  rv : Option ℤ := none
  priv : Option ℕ := none
  caio : ℕ → Option Caio := fun _ => none
  others : Bool := false
  trace : List AioEvent := []

/-- What happens next. -/
inductive AioAct where
  | submit
  | lockDir
  | unlockDir
  | cancel
  | cancelled (i : ℕ)
  | handle (i : ℕ)
  | fpRw (i : ℕ) (rv : ℤ)
  | kiComplete (i : ℕ)
  | unmap (i : ℕ)
  | finish (i : ℕ)
  deriving DecidableEq

def Kiocb.put (s : Kiocb) (i : ℕ) (b : Option Caio) : Kiocb :=
  { s with caio := Function.update s.caio i b }

def Kiocb.log (s : Kiocb) (l : List AioEvent) : Kiocb := { s with trace := s.trace ++ l }

/-- With the control block of a segment, if there is one. -/
def Kiocb.withCaio (s : Kiocb) (i : ℕ) (f : Caio → Kiocb) : Kiocb :=
  match s.caio i with
  | none => s
  | some b => f b

/-- What the completions report. -/
def completions (l : List AioEvent) : List ℤ :=
  l.filterMap (fun ev => match ev with | .complete rv => some rv | _ => none)

/-- The transfers that have returned. -/
def transfers (l : List AioEvent) : List (ℕ × ℤ) :=
  l.filterMap (fun ev => match ev with | .transfer i rv => some (i, rv) | _ => none)

/-- The control blocks that are allocated. -/
def allocs (l : List AioEvent) : List ℕ :=
  l.filterMap (fun ev => match ev with | .alloc i => some i | _ => none)

/-- The control blocks that are freed. -/
def frees (l : List AioEvent) : List (ℕ × List PinOp) :=
  l.filterMap (fun ev => match ev with | .free i log => some (i, log) | _ => none)

/-- The call has died. -/
def oopsed (l : List AioEvent) : Bool :=
  l.any (fun ev => match ev with | .oops => true | _ => false)

/-- A handler of the operation, or another one, holds the lock of the direction. -/
def Kiocb.dirLocked (s : Kiocb) : Bool :=
  s.others || (List.range s.seg).any (fun i => (s.caio i).any (fun b => b.phase ≠ .queued))

/-- One pass of the loop that submits, or the end of it. -/
def Kiocb.submit (c : AioCall) (s : Kiocb) : Kiocb :=
  match c.io[s.seg]? with
  | none => { s with rv := some eiocbqueued }
  | some v =>
      match aioSegment c.k c.write (c.io.headD ⟨0, 0⟩) c.pos v (c.env s.seg) with
      | .oops => s.log [.oops]
      | .failed rv iocb =>
          Kiocb.log { s with rv := some rv } [.alloc s.seg, .free s.seg iocb.log]
      | .queued w =>
          (({ s with seg := s.seg + 1, priv := some s.seg }).put s.seg (some { work := w })).log
            [.alloc s.seg]

/-- The start of `async_io_handler`, to where it has both locks; without one of them, it is
queued again. -/
def Kiocb.handle (s : Kiocb) (i : ℕ) (b : Caio) : Kiocb :=
  if b.cancelling then s
  else if b.cancel then (s.put i none).log [.free i b.work.iocb.log]
  else if s.dirLocked then s
  else s.put i (some { b with phase := .started })

/-- `caio_cancel`, to where it has the lock. -/
def Kiocb.cancel (s : Kiocb) : Kiocb :=
  match s.priv with
  | none => s
  | some i =>
      match s.caio i with
      | none => s.log [.stray i]
      | some b => s.put i (some { b with cancelling := true })

/-- What is done. -/
def Kiocb.step (c : AioCall) (s : Kiocb) : AioAct → Kiocb
  | .submit => s.submit c
  | .lockDir => { s with others := true }
  | .unlockDir => { s with others := false }
  | .cancel => s.cancel
  | .cancelled i => s.withCaio i (fun b =>
      s.put i (some { b with cancel := true, cancelling := false }))
  | .handle i => s.withCaio i (s.handle i)
  | .fpRw i rv => s.withCaio i (fun b =>
      (s.put i (some { b with phase := .transferred rv })).log [.transfer i rv])
  | .kiComplete i => s.withCaio i (fun b =>
      match b.phase with
      | .transferred rv => (s.put i (some { b with phase := .completed })).log [.complete rv]
      | _ => s)
  | .unmap i => s.withCaio i (fun b =>
      let iocb := iocbRelease (unmapUserBuf b.work.iocb c.write)
      s.put i (some { b with work := { b.work with iocb := iocb }, phase := .unmapped }))
  | .finish i => s.withCaio i (fun b => (s.put i none).log [.free i b.work.iocb.log])

/-- The handler has come to `phase`. -/
def Kiocb.isAt (s : Kiocb) (i : ℕ) (phase : AioPhase) : Bool :=
  (s.caio i).any (fun b => b.phase = phase)

/-- What can be done.  The kernel cancels nothing that is completed, and `caio_cancel` waits for the
lock that a handler holds. -/
def Kiocb.can (s : Kiocb) : AioAct → Bool
  | .submit => s.rv.isNone && !oopsed s.trace
  | .lockDir => !s.dirLocked
  | .unlockDir => s.others
  | .cancel =>
      (completions s.trace).isEmpty && s.priv.any (fun i =>
        (s.caio i).all (fun b => b.phase = .queued && !b.cancelling))
  | .cancelled i => (s.caio i).any (fun b => b.cancelling)
  | .handle i => s.isAt i .queued
  | .fpRw i _ => s.isAt i .started
  | .kiComplete i =>
      (s.caio i).any (fun b => match b.phase with | .transferred _ => true | _ => false)
  | .unmap i => s.isAt i .completed
  | .finish i => s.isAt i .unmapped

/-- An operation, before the loop. -/
def AioCall.start (c : AioCall) : Kiocb := if c.x.fpRw.isNone then { rv := some einval } else {}

/-- A run of an operation. -/
abbrev AioRun (c : AioCall) (s : Kiocb) (acts : List AioAct) (s' : Kiocb) : Prop :=
  Run (fun s a => Kiocb.step c s a) (fun s a => s.can a = true) s acts s'

/-! ## What is asked of it -/

/-- The call has returned, and no control block is left. -/
def Kiocb.Over (s : Kiocb) : Prop := s.rv.isSome = true ∧ ∀ i, s.caio i = none

/-- The total of the transfers, or an error if one has failed. -/
def TotalOrError (rvs : List ℤ) (rv : ℤ) : Prop :=
  if rvs.any (fun r => r < 0) then rv < 0 else rv = rvs.sum

/-- **The operation completes once**: never twice, never if the call returned an error, and with
what all its segments have come to; each control block is freed once, with its pages given back; and
when all is over, it has completed if the call returned `-EIOCBQUEUED`, and all is freed. -/
structure CompletesOnce (n : ℕ) (s : Kiocb) : Prop where
  once : (completions s.trace).length ≤ 1
  never : ∀ rv, s.rv = some rv → rv ≠ eiocbqueued → completions s.trace = []
  afterAll : ∀ pre rv post, s.trace = pre ++ .complete rv :: post →
    ((transfers pre).map Prod.fst).Perm (List.range n) ∧
      TotalOrError ((transfers pre).map Prod.snd) rv
  freedOnce : ((frees s.trace).map Prod.fst).Nodup ∧
    ∀ i ∈ (frees s.trace).map Prod.fst, i ∈ allocs s.trace
  pages : ∀ f ∈ frees s.trace, PagesReleased f.2
  alive : oopsed s.trace = false ∧ ∀ i, .stray i ∉ s.trace
  closed : s.Over → (s.rv = some eiocbqueued → completions s.trace ≠ []) ∧
    ∀ i ∈ allocs s.trace, i ∈ (frees s.trace).map Prod.fst

/-- **A segment is mapped.** -/
structure AioCall.Maps (c : AioCall) (v : IoVec) : Prop where
  caioMem : (c.env 0).caioMem = true
  pages : userPagesNr c.k v.base v.len ≠ 0
  pins : (c.env 0).pins.Pins c.k v.base v.len

/-- **A segment is refused cleanly**: its pages cannot all be pinned, and no other is put. -/
structure AioCall.Refuses (c : AioCall) (v : IoVec) : Prop where
  caioMem : (c.env 0).caioMem = true
  fails : ¬ (userPagesNr c.k v.base v.len ≠ 0 ∧ (c.env 0).pins.Pins c.k v.base v.len)
  noStray : ¬ (c.env 0).pins.Strays c.k v.base v.len
  errno : ∀ rv h, (c.env 0).pins.answer = .error rv h → rv ≠ eiocbqueued

/-- **An operation that completes once**: it has one segment, which is mapped; or the first one is
refused; or there is nothing to write and read with. -/
inductive AioCall.Sound (c : AioCall) : Prop where
  | one (v : IoVec) (hio : c.io = [v]) (hmaps : c.Maps v)
  | refused (v : IoVec) (vs : List IoVec) (hio : c.io = v :: vs) (hrefuses : c.Refuses v)
  | closed (hrw : c.x.fpRw = none)

/-- Nobody cancels the operation. -/
def NoCancel (acts : List AioAct) : Prop := ∀ a ∈ acts, a ≠ .cancel

/-! ## Segments -/

/-- **The pages of a segment are given back**: at once if it cannot be mapped, and in front of
nothing that is taken for a page; else when it is unmapped. -/
theorem mapUserBuf_released (k : PageShift) (e : PinEnv) (write : Bool) (buf len : ℕ) :
    ((mapUserBufToSgl k { buf := buf, len := len } e write).2 < 0 → ¬ e.Strays k buf len →
        PagesReleased (mapUserBufToSgl k { buf := buf, len := len } e write).1.log) ∧
      (¬ (mapUserBufToSgl k { buf := buf, len := len } e write).2 < 0 →
        PagesReleased (iocbRelease (unmapUserBuf
          (mapUserBufToSgl k { buf := buf, len := len } e write).1 write)).log) := by
  have hready : bothQueues.Ready write := ⟨rfl, by cases write <;> rfl⟩
  have hlog := @cdevGenReadWrite_log k bothQueues e buf len 0 write hready
  have hiff := (cdev_pinOutcome k bothQueues e buf len 0 write).released_iff.2
  rw [hlog] at hiff
  constructor
  · intro hrv hno
    rw [if_pos hrv] at hiff
    exact hiff.mpr (fun h => hno h.2)
  · intro hrv
    rw [if_neg hrv] at hiff
    exact hiff.mpr (fun h => h.2.fails.fails (mapUserBuf_ok hrv).2.all)

theorem AioCall.Maps.segment {c : AioCall} {v : IoVec} (h : c.Maps v) :
    ∃ w, aioSegment c.k c.write (c.io.headD ⟨0, 0⟩) c.pos v (c.env 0) = .queued w ∧
      PagesReleased (iocbRelease (unmapUserBuf w.iocb c.write)).log := by
  obtain ⟨mem, hmem⟩ := Option.isSome_iff_exists.mp h.pins.pagesMem
  have hmap := mapUserBuf_pinned (s := { buf := v.base, len := v.len }) c.write h.pages h.pins.sgMem
    hmem h.pins.all
  have hpages := (mapUserBuf_released c.k (c.env 0).pins c.write v.base v.len).2
  rw [aioSegment_eq h.caioMem hmap, if_neg (lt_irrefl 0)]
  rw [hmap] at hpages
  exact ⟨_, rfl, hpages (lt_irrefl 0)⟩

theorem AioCall.Refuses.segment {c : AioCall} {v : IoVec} (h : c.Refuses v) :
    ∃ rv iocb, aioSegment c.k c.write (c.io.headD ⟨0, 0⟩) c.pos v (c.env 0) = .failed rv iocb ∧
      rv ≠ eiocbqueued ∧ PagesReleased iocb.log := by
  have hcases := mapUserBuf_cases c.k { buf := v.base, len := v.len } (c.env 0).pins c.write
  have hpages := (mapUserBuf_released c.k (c.env 0).pins c.write v.base v.len).1
  rw [aioSegment_eq h.caioMem (Prod.eta _).symm]
  generalize mapUserBufToSgl c.k { buf := v.base, len := v.len } (c.env 0).pins c.write = m
    at hcases hpages ⊢
  -- the mapping fails, with an error that is not the one for success
  have hrv : m.2 < 0 ∧ m.2 ≠ eiocbqueued := by
    rcases hcases with ⟨-, hok⟩ | hmem | ⟨rv, hneg, hans, heq⟩
    · exact absurd hok h.fails
    · have herr : ∀ rv ∈ [einval, enomem, efault], rv < 0 ∧ rv ≠ eiocbqueued := by decide
      exact herr _ hmem
    · rw [heq]
      exact ⟨hneg, h.errno rv hneg hans⟩
  rw [if_pos hrv.1]
  exact ⟨m.2, m.1, rfl, hrv.2, hpages hrv.1 h.noStray⟩

/-! ## The stages -/

/-- What is in the log when the handler has come to a phase. -/
def phaseTrace : AioPhase → List AioEvent → Prop
  | .queued, l => l = [.alloc 0]
  | .started, l => l = [.alloc 0]
  | .transferred rv, l => l = [.alloc 0, .transfer 0 rv]
  | .completed, l => ∃ rv, l = [.alloc 0, .transfer 0 rv, .complete rv]
  | .unmapped, l => ∃ rv, l = [.alloc 0, .transfer 0 rv, .complete rv]

/-- **The stages of an operation** that completes once. -/
inductive AioStage (c : AioCall) (s : Kiocb) : Prop where
  | fresh (hseg : s.seg = 0) (hrv : s.rv = none) (hnone : ∀ i, s.caio i = none)
      (htrace : s.trace = []) (hopen : (∃ v, c.io = [v] ∧ c.Maps v) ∨
        ∃ v vs, c.io = v :: vs ∧ c.Refuses v)
  | refused (rv : ℤ) (hrv : s.rv = some rv) (hne : rv ≠ eiocbqueued)
      (hnone : ∀ i, s.caio i = none)
      (htrace : s.trace = [] ∨ ∃ log, PagesReleased log ∧ s.trace = [.alloc 0, .free 0 log])
  | busy (b : Caio) (hio : ∃ v, c.io = [v]) (hseg : s.seg = 1)
      (hrv : s.rv = none ∨ s.rv = some eiocbqueued) (hcaio : s.caio 0 = some b)
      (hnone : ∀ i, i ≠ 0 → s.caio i = none) (hkept : b.cancel = false ∧ b.cancelling = false)
      (hpages : if b.phase = .unmapped then PagesReleased b.work.iocb.log
        else PagesReleased (iocbRelease (unmapUserBuf b.work.iocb c.write)).log)
      (htrace : phaseTrace b.phase s.trace)
  | freed (rv : ℤ) (log : List PinOp) (hio : ∃ v, c.io = [v]) (hseg : s.seg = 1)
      (hrv : s.rv = none ∨ s.rv = some eiocbqueued) (hnone : ∀ i, s.caio i = none)
      (hpages : PagesReleased log)
      (htrace : s.trace = [.alloc 0, .transfer 0 rv, .complete rv, .free 0 log])

/-- The control block that something happens to. -/
def AioAct.item : AioAct → Option ℕ
  | .submit | .lockDir | .unlockDir | .cancel => none
  | .cancelled i | .handle i | .fpRw i _ | .kiComplete i | .unmap i | .finish i => some i

theorem Kiocb.can_item {s : Kiocb} {a : AioAct} {i : ℕ} (ha : a.item = some i)
    (h : s.can a = true) : ∃ b, s.caio i = some b := by
  cases hb : s.caio i with
  | some b => exact ⟨b, rfl⟩
  | none => cases a <;> simp_all [AioAct.item, Kiocb.can, Kiocb.isAt]

theorem Kiocb.withCaio_some {s : Kiocb} {i : ℕ} {b : Caio} (h : s.caio i = some b)
    (f : Caio → Kiocb) : s.withCaio i f = f b := by
  unfold Kiocb.withCaio
  rw [h]

theorem Kiocb.isAt_some {s : Kiocb} {i : ℕ} {b : Caio} {phase : AioPhase} (h : s.caio i = some b)
    (hat : s.isAt i phase = true) : b.phase = phase := by
  unfold Kiocb.isAt at hat
  rw [h] at hat
  exact of_decide_eq_true hat

@[simp] theorem Kiocb.put_self (s : Kiocb) (i : ℕ) (b : Option Caio) : (s.put i b).caio i = b := by
  unfold Kiocb.put
  exact Function.update_self ..

theorem Kiocb.put_other {s : Kiocb} {i j : ℕ} (b : Option Caio) (h : j ≠ i) :
    (s.put i b).caio j = s.caio j := by
  unfold Kiocb.put
  exact Function.update_of_ne h ..

theorem Kiocb.put_none {s : Kiocb} (h : ∀ i, i ≠ 0 → s.caio i = none) (i : ℕ) :
    (s.put 0 none).caio i = none := by
  by_cases hi : i = 0
  · rw [hi]
    exact s.put_self 0 none
  · rw [s.put_other none hi]
    exact h i hi

/-- The loop ends. -/
theorem Kiocb.submit_end {c : AioCall} {s : Kiocb} (hio : ∃ v, c.io = [v]) (hseg : s.seg = 1) :
    s.submit c = { s with rv := some eiocbqueued } := by
  obtain ⟨v, hio⟩ := hio
  unfold Kiocb.submit
  rw [hseg, hio]
  rfl

/-- **Where there is no control block**, all that can be done is to submit, and what others do. -/
theorem Kiocb.can_idle {s : Kiocb} {a : AioAct} (hnone : ∀ i, s.caio i = none)
    (h : s.can a = true) (ha : a ≠ .cancel) : a = .submit ∨ a = .lockDir ∨ a = .unlockDir := by
  have hno : ∀ i, a.item ≠ some i := by
    intro i hi
    obtain ⟨b, hb⟩ := Kiocb.can_item hi h
    rw [hnone i] at hb
    exact absurd hb (Option.some_ne_none b).symm
  cases a with
  | submit => exact .inl rfl
  | lockDir => exact .inr (.inl rfl)
  | unlockDir => exact .inr (.inr rfl)
  | cancel => exact absurd rfl ha
  | cancelled i => exact absurd rfl (hno i)
  | handle i => exact absurd rfl (hno i)
  | fpRw i rv => exact absurd rfl (hno i)
  | kiComplete i => exact absurd rfl (hno i)
  | unmap i => exact absurd rfl (hno i)
  | finish i => exact absurd rfl (hno i)

theorem Kiocb.can_submit {s : Kiocb} (h : s.can .submit = true) : s.rv = none := by
  unfold Kiocb.can at h
  rw [Bool.and_eq_true] at h
  exact Option.isNone_iff_eq_none.mp h.1

/-- **The first segment is submitted.** -/
theorem AioStage.submit {c : AioCall} {s : Kiocb} (hseg : s.seg = 0) (hrv : s.rv = none)
    (hnone : ∀ i, s.caio i = none) (htrace : s.trace = [])
    (hopen : (∃ v, c.io = [v] ∧ c.Maps v) ∨ ∃ v vs, c.io = v :: vs ∧ c.Refuses v) :
    AioStage c (s.submit c) := by
  unfold Kiocb.submit
  rw [hseg]
  rcases hopen with ⟨v, hio, hmaps⟩ | ⟨v, vs, hio, hrefuses⟩
  · obtain ⟨w, hw, hpages⟩ := hmaps.segment
    rw [show c.io[0]? = some v by rw [hio]; rfl]
    simp only
    rw [hw]
    set s' : Kiocb := { s with seg := 0 + 1, priv := some 0 } with hs'
    refine .busy { work := w } ⟨v, hio⟩ rfl (.inl hrv) (s'.put_self 0 _) ?_ ⟨rfl, rfl⟩ hpages ?_
    · intro i hi
      exact (s'.put_other _ hi).trans (hnone i)
    · show s.trace ++ [.alloc 0] = [.alloc 0]
      rw [htrace]
      rfl
  · obtain ⟨rv, iocb, hw, hne, hpages⟩ := hrefuses.segment
    rw [show c.io[0]? = some v by rw [hio]; rfl]
    simp only
    rw [hw]
    refine .refused rv rfl hne hnone (.inr ⟨iocb.log, hpages, ?_⟩)
    show s.trace ++ [.alloc 0, .free 0 iocb.log] = _
    rw [htrace]
    rfl

/-- What others do does not matter. -/
theorem AioStage.withOthers {c : AioCall} {s : Kiocb} (h : AioStage c s) (others : Bool) :
    AioStage c { s with others := others } := by
  cases h with
  | fresh hseg hrv hnone htrace hopen => exact .fresh hseg hrv hnone htrace hopen
  | refused rv hrv hne hnone htrace => exact .refused rv hrv hne hnone htrace
  | busy b hio hseg hrv hcaio hnone hkept hpages htrace =>
      exact .busy b hio hseg hrv hcaio hnone hkept hpages htrace
  | freed rv log hio hseg hrv hnone hpages htrace =>
      exact .freed rv log hio hseg hrv hnone hpages htrace

/-- **What a step of the handler comes to.** -/
theorem AioStage.handler {c : AioCall} {s : Kiocb} {b : Caio} {a : AioAct} {i : ℕ}
    (hio : ∃ v, c.io = [v]) (hseg : s.seg = 1) (hrv : s.rv = none ∨ s.rv = some eiocbqueued)
    (hcaio : s.caio 0 = some b) (hnone : ∀ i, i ≠ 0 → s.caio i = none)
    (hkept : b.cancel = false ∧ b.cancelling = false)
    (hpages : if b.phase = .unmapped then PagesReleased b.work.iocb.log
      else PagesReleased (iocbRelease (unmapUserBuf b.work.iocb c.write)).log)
    (htrace : phaseTrace b.phase s.trace) (ha : a.item = some i) (hcan : s.can a = true) :
    AioStage c (s.step c a) := by
  -- there is one control block
  obtain rfl : i = 0 := by
    obtain ⟨b', hb'⟩ := Kiocb.can_item ha hcan
    by_contra hi
    rw [hnone i hi] at hb'
    exact absurd hb' (Option.some_ne_none b').symm
  have hput : ∀ b' : Caio, ∀ i, i ≠ 0 → (s.put 0 (some b')).caio i = none := by
    intro b' i hi
    rw [s.put_other _ hi]
    exact hnone i hi
  cases a with
  | submit | lockDir | unlockDir | cancel => exact nomatch ha
  | cancelled j =>
      obtain rfl := Option.some.inj ha
      have hset : b.cancelling = true := by
        unfold Kiocb.can at hcan
        simp only at hcan
        rw [hcaio] at hcan
        exact hcan
      exact absurd (hkept.2.symm.trans hset) Bool.false_ne_true
  | handle j =>
      obtain rfl := Option.some.inj ha
      have hphase := Kiocb.isAt_some hcaio hcan
      rw [Kiocb.step, Kiocb.withCaio_some hcaio, Kiocb.handle,
        if_neg (Bool.eq_false_iff.mp hkept.2), if_neg (Bool.eq_false_iff.mp hkept.1)]
      rw [hphase] at htrace hpages
      by_cases hlock : s.dirLocked = true
      · -- the lock of the direction is taken, and the work is queued again
        rw [if_pos hlock]
        refine .busy b hio hseg hrv hcaio hnone hkept ?_ ?_
        · rw [hphase]
          exact hpages
        · rw [hphase]
          exact htrace
      · rw [if_neg hlock]
        exact .busy { b with phase := .started } hio hseg hrv (s.put_self 0 _) (hput _) hkept hpages
          htrace
  | fpRw j rv =>
      obtain rfl := Option.some.inj ha
      have hphase := Kiocb.isAt_some hcaio hcan
      rw [Kiocb.step, Kiocb.withCaio_some hcaio]
      rw [hphase] at htrace hpages
      refine .busy { b with phase := .transferred rv } hio hseg hrv (s.put_self 0 _) (hput _) hkept
        hpages ?_
      show s.trace ++ [.transfer 0 rv] = _
      rw [show s.trace = [.alloc 0] from htrace]
      rfl
  | kiComplete j =>
      obtain rfl := Option.some.inj ha
      rw [Kiocb.step, Kiocb.withCaio_some hcaio]
      cases hphase : b.phase with
      | transferred rv =>
          rw [hphase] at htrace hpages
          refine .busy { b with phase := .completed } hio hseg hrv (s.put_self 0 _) (hput _) hkept
            hpages ⟨rv, ?_⟩
          show s.trace ++ [.complete rv] = _
          rw [show s.trace = [.alloc 0, .transfer 0 rv] from htrace]
          rfl
      | queued | started | completed | unmapped =>
          unfold Kiocb.can at hcan
          simp only [hcaio, Option.any_some, hphase, Bool.false_eq_true] at hcan
  | unmap j =>
      obtain rfl := Option.some.inj ha
      have hphase := Kiocb.isAt_some hcaio hcan
      rw [Kiocb.step, Kiocb.withCaio_some hcaio]
      rw [hphase] at htrace hpages
      exact .busy _ hio hseg hrv (s.put_self 0 _) (hput _) hkept hpages htrace
  | finish j =>
      obtain rfl := Option.some.inj ha
      have hphase := Kiocb.isAt_some hcaio hcan
      rw [Kiocb.step, Kiocb.withCaio_some hcaio]
      rw [hphase] at htrace hpages
      obtain ⟨rv, hlog⟩ := htrace
      refine .freed rv b.work.iocb.log hio hseg hrv (Kiocb.put_none hnone) hpages ?_
      show s.trace ++ [.free 0 b.work.iocb.log] = _
      rw [hlog]
      rfl

/-- **Every step leads from stage to stage.** -/
theorem AioStage.step {c : AioCall} {s : Kiocb} {a : AioAct} (h : AioStage c s)
    (hcan : s.can a = true) (ha : a ≠ .cancel) : AioStage c (s.step c a) := by
  cases h with
  | fresh hseg hrv hnone htrace hopen =>
      rcases Kiocb.can_idle hnone hcan ha with rfl | rfl | rfl
      · exact .submit hseg hrv hnone htrace hopen
      · exact AioStage.withOthers (.fresh hseg hrv hnone htrace hopen) true
      · exact AioStage.withOthers (.fresh hseg hrv hnone htrace hopen) false
  | refused rv hrv hne hnone htrace =>
      rcases Kiocb.can_idle hnone hcan ha with rfl | rfl | rfl
      · rw [Kiocb.can_submit hcan] at hrv
        exact nomatch hrv
      · exact AioStage.withOthers (.refused rv hrv hne hnone htrace) true
      · exact AioStage.withOthers (.refused rv hrv hne hnone htrace) false
  | busy b hio hseg hrv hcaio hnone hkept hpages htrace =>
      cases hitem : a.item with
      | some i => exact .handler hio hseg hrv hcaio hnone hkept hpages htrace hitem hcan
      | none =>
          cases a with
          | submit =>
              rw [Kiocb.step, Kiocb.submit_end hio hseg]
              exact .busy b hio hseg (.inr rfl) hcaio hnone hkept hpages htrace
          | lockDir =>
              exact AioStage.withOthers (.busy b hio hseg hrv hcaio hnone hkept hpages htrace) true
          | unlockDir =>
              exact AioStage.withOthers (.busy b hio hseg hrv hcaio hnone hkept hpages htrace) false
          | cancel => exact absurd rfl ha
          | cancelled | handle | fpRw | kiComplete | unmap | finish => exact nomatch hitem
  | freed rv log hio hseg hrv hnone hpages htrace =>
      rcases Kiocb.can_idle hnone hcan ha with rfl | rfl | rfl
      · rw [Kiocb.step, Kiocb.submit_end hio hseg]
        exact .freed rv log hio hseg (.inr rfl) hnone hpages htrace
      · exact AioStage.withOthers (.freed rv log hio hseg hrv hnone hpages htrace) true
      · exact AioStage.withOthers (.freed rv log hio hseg hrv hnone hpages htrace) false

theorem AioCall.Sound.stage {c : AioCall} (h : c.Sound) : AioStage c c.start := by
  unfold AioCall.start
  by_cases hrw : c.x.fpRw.isNone = true
  · rw [if_pos hrw]
    exact .refused einval rfl (by decide) (fun _ => rfl) (.inl rfl)
  · rw [if_neg hrw]
    refine .fresh rfl rfl (fun _ => rfl) rfl ?_
    cases h with
    | one v hio hmaps => exact .inl ⟨v, hio, hmaps⟩
    | refused v vs hio hrefuses => exact .inr ⟨v, vs, hio, hrefuses⟩
    | closed hclosed =>
        rw [hclosed] at hrw
        exact absurd rfl hrw

/-- **Every state reached is at a stage.** -/
theorem AioCall.Sound.stages {c : AioCall} (h : c.Sound) {acts : List AioAct} {s : Kiocb}
    (hrun : AioRun c c.start acts s) (hno : NoCancel acts) : AioStage c s :=
  (hrun.and hno).invariant h.stage (fun _ _ hs hok => hs.step hok.1 hok.2)

/-! ## What an operation comes to -/

/-- A log without completions. -/
theorem completes_none {l : List AioEvent} (h : completions l = []) (pre : List AioEvent) (rv : ℤ)
    (post : List AioEvent) : l ≠ pre ++ .complete rv :: post := by
  rintro rfl
  have hmem : rv ∈ completions (pre ++ .complete rv :: post) :=
    List.mem_filterMap.mpr ⟨.complete rv, List.mem_append_right _ List.mem_cons_self, rfl⟩
  rw [h] at hmem
  exact List.not_mem_nil hmem

/-- A completion behind the only transfer. -/
theorem completes_one {rv rv' : ℤ} {pre post tail : List AioEvent}
    (htail : completions tail = [])
    (h : .alloc 0 :: .transfer 0 rv :: .complete rv :: tail = pre ++ .complete rv' :: post) :
    pre = [.alloc 0, .transfer 0 rv] ∧ rv' = rv := by
  match pre, h with
  | [], h => exact AioEvent.noConfusion (List.cons.inj h).1
  | [_], h => exact AioEvent.noConfusion (List.cons.inj (List.cons.inj h).2).1
  | [_, _], h =>
      simp only [List.cons_append, List.nil_append, List.cons.injEq, AioEvent.complete.injEq] at h
      obtain ⟨rfl, rfl, rfl, -⟩ := h
      exact ⟨rfl, rfl⟩
  | _ :: _ :: _ :: pre, h =>
      have hrest := (List.cons.inj (List.cons.inj (List.cons.inj h).2).2).2
      exact absurd hrest (completes_none htail pre rv' post)

/-- The total of one transfer is what it has returned. -/
theorem totalOrError_one (rv : ℤ) : TotalOrError [rv] rv := by
  unfold TotalOrError
  by_cases h : rv < 0
  · rw [if_pos (by simp [h])]
    exact h
  · rw [if_neg (by simp [h])]
    simp

/-- What has not completed, and need not. -/
theorem completesOnce_quiet {n : ℕ} {s : Kiocb} {l : List AioEvent} (htrace : s.trace = l)
    (hl : l = [] ∨ l = [.alloc 0] ∨ (∃ rv, l = [.alloc 0, .transfer 0 rv]) ∨
      ∃ log, PagesReleased log ∧ l = [.alloc 0, .free 0 log])
    (hover : s.Over → s.rv ≠ some eiocbqueued ∧ ∀ i ∈ allocs l, i ∈ (frees l).map Prod.fst) :
    CompletesOnce n s := by
  have hnone : completions l = [] ∧ oopsed l = false ∧ (∀ i, .stray i ∉ l) ∧
      (∀ f ∈ frees l, PagesReleased f.2) ∧ ((frees l).map Prod.fst).Nodup ∧
        ∀ i ∈ (frees l).map Prod.fst, i ∈ allocs l := by
    rcases hl with rfl | rfl | ⟨rv, rfl⟩ | ⟨log, hlog, rfl⟩
    · simp [completions, oopsed, frees]
    · simp [completions, oopsed, frees]
    · simp [completions, oopsed, frees]
    · simp [completions, oopsed, frees, allocs, hlog]
  obtain ⟨hcomp, hoops, hstray, hpages, hnodup, hsub⟩ := hnone
  subst htrace
  refine ⟨?_, fun _ _ _ => hcomp, ?_, ⟨hnodup, hsub⟩, hpages, ⟨hoops, hstray⟩, ?_⟩
  · rw [hcomp]
    exact Nat.zero_le 1
  · intro pre rv post heq
    exact absurd heq (completes_none hcomp pre rv post)
  · intro h
    exact ⟨fun hrv => absurd hrv (hover h).1, (hover h).2⟩

/-- What has completed. -/
theorem completesOnce_done {s : Kiocb} {rv : ℤ} {tail : List AioEvent}
    (hrv : s.rv = none ∨ s.rv = some eiocbqueued)
    (htrace : s.trace = .alloc 0 :: .transfer 0 rv :: .complete rv :: tail)
    (htail : tail = [] ∨ ∃ log, PagesReleased log ∧ tail = [.free 0 log])
    (hover : s.Over → tail ≠ []) : CompletesOnce 1 s := by
  have hlog : completions tail = [] ∧ oopsed tail = false ∧ (∀ i, .stray i ∉ tail) ∧
      (∀ f ∈ frees tail, PagesReleased f.2) ∧ (frees tail).map Prod.fst ∈ [[], [0]] ∧
        (tail ≠ [] → (frees tail).map Prod.fst = [0]) := by
    rcases htail with rfl | ⟨log, hlog, rfl⟩
    · simp [completions, oopsed, frees]
    · simp [completions, oopsed, frees, hlog]
  obtain ⟨hcomp, hoops, hstray, hpages, hfrees, hfreed⟩ := hlog
  have hone : completions s.trace = [rv] := by
    rw [htrace]
    exact congrArg (List.cons rv) hcomp
  have hallocs : 0 ∈ allocs s.trace := by
    rw [htrace]
    exact List.mem_cons_self
  have hsame : frees s.trace = frees tail := by
    rw [htrace]
    rfl
  refine ⟨by rw [hone]; rfl, ?_, ?_, ?_, hsame ▸ hpages, ?_, ?_⟩
  · intro rv' hrv' hne
    rcases hrv with hrv | hrv
    · exact nomatch hrv.symm.trans hrv'
    · exact absurd (Option.some.inj (hrv.symm.trans hrv')).symm hne
  · intro pre rv' post heq
    obtain ⟨rfl, rfl⟩ := completes_one hcomp (htrace.symm.trans heq)
    exact ⟨List.Perm.refl _, totalOrError_one rv'⟩
  · rw [hsame]
    rcases List.mem_pair.mp hfrees with h | h
    · rw [h]
      exact ⟨List.nodup_nil, fun i hi => absurd hi List.not_mem_nil⟩
    · rw [h]
      refine ⟨List.nodup_singleton 0, fun i hi => ?_⟩
      rw [List.mem_singleton.mp hi]
      exact hallocs
  · rw [htrace]
    refine ⟨hoops, fun i hi => hstray i ?_⟩
    simpa using hi
  · intro h
    refine ⟨fun _ => by rw [hone]; exact List.cons_ne_nil _ _, fun i hi => ?_⟩
    rw [hsame, hfreed (hover h)]
    have hall : allocs s.trace = [0] ++ allocs tail := by
      rw [htrace]
      rfl
    rw [hall] at hi
    rcases htail with rfl | ⟨log, -, rfl⟩
    · exact hi
    · exact hi

/-- **Every stage is as it should be.** -/
theorem AioStage.completesOnce {c : AioCall} {s : Kiocb} (h : AioStage c s) :
    CompletesOnce c.io.length s := by
  cases h with
  | fresh hseg hrv hnone htrace hopen =>
      refine completesOnce_quiet htrace (.inl rfl) (fun hover => ?_)
      have hsome := hover.1
      rw [hrv] at hsome
      exact absurd hsome Bool.false_ne_true
  | refused rv hrv hne hnone htrace =>
      have hnot : s.rv ≠ some eiocbqueued := by
        rw [hrv]
        exact fun h => hne (Option.some.inj h)
      rcases htrace with htrace | ⟨log, hlog, htrace⟩
      · exact completesOnce_quiet htrace (.inl rfl) (fun _ => ⟨hnot, by simp [allocs]⟩)
      · exact completesOnce_quiet htrace (.inr (.inr (.inr ⟨log, hlog, rfl⟩)))
          (fun _ => ⟨hnot, by simp [allocs, frees]⟩)
  | busy b hio hseg hrv hcaio hnone hkept hpages htrace =>
      have hnot : ¬ s.Over := by
        intro hover
        rw [hover.2 0] at hcaio
        exact nomatch hcaio
      obtain ⟨v, hio⟩ := hio
      rw [hio]
      cases hphase : b.phase with
      | queued | started =>
          rw [hphase] at htrace
          exact completesOnce_quiet htrace (.inr (.inl rfl)) (fun h => absurd h hnot)
      | transferred rv =>
          rw [hphase] at htrace
          exact completesOnce_quiet htrace (.inr (.inr (.inl ⟨rv, rfl⟩))) (fun h => absurd h hnot)
      | completed | unmapped =>
          rw [hphase] at htrace
          obtain ⟨rv, htrace⟩ := htrace
          exact completesOnce_done hrv htrace (.inl rfl) (fun h => absurd h hnot)
  | freed rv log hio hseg hrv hnone hpages htrace =>
      obtain ⟨v, hio⟩ := hio
      rw [hio]
      exact completesOnce_done hrv htrace (.inr ⟨log, hpages, rfl⟩)
        (fun _ => List.cons_ne_nil _ _)

/-! ## It comes to an end -/

/-- How many steps a handler still has to take. -/
def AioPhase.left : AioPhase → ℕ
  | .queued => 5
  | .started => 4
  | .transferred _ => 3
  | .completed => 2
  | .unmapped => 1

/-- How much is left to do: to submit and to return, to unlock, and to handle. -/
def Kiocb.left (s : Kiocb) : ℕ :=
  (if s.rv = none then if s.seg = 0 then 20 else 10 else 0) + s.others.toNat +
    (s.caio 0).elim 0 (fun b => b.phase.left)

/-- The operation can be brought to its end. -/
def Kiocb.Ends (c : AioCall) (s : Kiocb) : Prop :=
  ∃ acts s', NoCancel acts ∧ AioRun c s acts s' ∧ s'.Over

theorem Kiocb.left_of_none {s : Kiocb} (h : s.caio 0 = none) :
    s.left = (if s.rv = none then if s.seg = 0 then 20 else 10 else 0) + s.others.toNat := by
  unfold Kiocb.left
  rw [h]
  rfl

theorem Kiocb.left_of_some {s : Kiocb} {b : Caio} (h : s.caio 0 = some b) :
    s.left = (if s.rv = none then if s.seg = 0 then 20 else 10 else 0) + s.others.toNat +
      b.phase.left := by
  unfold Kiocb.left
  rw [h]
  rfl

/-- A handler gets on. -/
theorem Kiocb.left_put {s : Kiocb} {b : Caio} (b' : Caio) (l : List AioEvent)
    (hcaio : s.caio 0 = some b) (hlt : b'.phase.left < b.phase.left) :
    ((s.put 0 (some b')).log l).left < s.left := by
  have hcaio' : ((s.put 0 (some b')).log l).caio 0 = some b' := s.put_self 0 _
  rw [Kiocb.left_of_some hcaio, Kiocb.left_of_some hcaio']
  exact Nat.add_lt_add_left hlt _

/-- **The first segment is submitted**, and less is left to do. -/
theorem Kiocb.left_submit {c : AioCall} {s : Kiocb} (hseg : s.seg = 0) (hrv : s.rv = none)
    (hnone : ∀ i, s.caio i = none)
    (hopen : (∃ v, c.io = [v] ∧ c.Maps v) ∨ ∃ v vs, c.io = v :: vs ∧ c.Refuses v) :
    (s.submit c).left < s.left := by
  have hleft : s.left = 20 + s.others.toNat := by
    rw [Kiocb.left_of_none (hnone 0), if_pos hrv, if_pos hseg]
  rw [hleft]
  unfold Kiocb.submit
  rw [hseg]
  rcases hopen with ⟨v, hio, hmaps⟩ | ⟨v, vs, hio, hrefuses⟩
  · obtain ⟨w, hw, -⟩ := hmaps.segment
    rw [show c.io[0]? = some v by rw [hio]; rfl]
    simp only
    rw [hw]
    set s' : Kiocb := { s with seg := 0 + 1, priv := some 0 } with hs'
    set s'' : Kiocb := (s'.put 0 (some { work := w })).log [.alloc 0] with hs''
    have hcaio : s''.caio 0 = some { work := w } := s'.put_self 0 _
    have hrv' : s''.rv = none := hrv
    have hseg' : s''.seg ≠ 0 := Nat.one_ne_zero
    show s''.left < _
    rw [Kiocb.left_of_some hcaio, if_pos hrv', if_neg hseg']
    show 10 + s.others.toNat + 5 < 20 + s.others.toNat
    omega
  · obtain ⟨rv, iocb, hw, -, -⟩ := hrefuses.segment
    rw [show c.io[0]? = some v by rw [hio]; rfl]
    simp only
    rw [hw]
    set s' : Kiocb := Kiocb.log { s with rv := some rv } [.alloc 0, .free 0 iocb.log] with hs'
    have hcaio : s'.caio 0 = none := hnone 0
    show s'.left < _
    rw [Kiocb.left_of_none hcaio]
    show 0 + s.others.toNat < 20 + s.others.toNat
    omega

/-- **A handler can get on**, or whoever has the lock of the direction can give it back. -/
theorem AioPhase.progress {c : AioCall} {s : Kiocb} {b : Caio} (hseg : s.seg = 1)
    (hcaio : s.caio 0 = some b) (hkept : b.cancel = false ∧ b.cancelling = false) :
    ∃ a, a ≠ .cancel ∧ s.can a = true ∧ (s.step c a).left < s.left := by
  have hat : ∀ phase, b.phase = phase → s.isAt 0 phase = true := by
    intro phase hphase
    unfold Kiocb.isAt
    rw [hcaio]
    exact decide_eq_true hphase
  have hlt : ∀ (b' : Caio) (n : ℕ), b'.phase.left = n → n < b.phase.left →
      ((s.put 0 (some b')).log []).left < s.left :=
    fun b' n hn hb => Kiocb.left_put _ _ hcaio (hn ▸ hb)
  cases hphase : b.phase with
  | queued =>
      cases hothers : s.others with
      | true =>
          refine ⟨.unlockDir, nofun, hothers, ?_⟩
          show Kiocb.left { s with others := false } < s.left
          unfold Kiocb.left
          rw [hothers]
          simp
      | false =>
          -- nobody has the lock of the direction
          have hfree : s.dirLocked = false := by
            unfold Kiocb.dirLocked
            rw [hothers, hseg, List.range_one]
            simp [hcaio, hphase]
          refine ⟨.handle 0, nofun, hat _ hphase, ?_⟩
          rw [Kiocb.step, Kiocb.withCaio_some hcaio, Kiocb.handle,
            if_neg (Bool.eq_false_iff.mp hkept.2), if_neg (Bool.eq_false_iff.mp hkept.1),
            if_neg (Bool.eq_false_iff.mp hfree)]
          have hstarted := Kiocb.left_put { b with phase := .started } [] hcaio
            (by rw [hphase]; exact Nat.lt_succ_self 4)
          exact hstarted
  | started =>
      refine ⟨.fpRw 0 0, nofun, hat _ hphase, ?_⟩
      rw [Kiocb.step, Kiocb.withCaio_some hcaio]
      exact Kiocb.left_put _ _ hcaio (by rw [hphase]; exact Nat.lt_succ_self 3)
  | transferred rv =>
      refine ⟨.kiComplete 0, nofun, ?_, ?_⟩
      · unfold Kiocb.can
        simp only
        rw [hcaio, Option.any_some, hphase]
      · rw [Kiocb.step, Kiocb.withCaio_some hcaio]
        simp only [hphase]
        exact Kiocb.left_put _ _ hcaio (by rw [hphase]; exact Nat.lt_succ_self 2)
  | completed =>
      refine ⟨.unmap 0, nofun, hat _ hphase, ?_⟩
      rw [Kiocb.step, Kiocb.withCaio_some hcaio]
      have hunmapped := Kiocb.left_put
        { b with
          work := { b.work with iocb := iocbRelease (unmapUserBuf b.work.iocb c.write) }
          phase := .unmapped } [] hcaio (by rw [hphase]; exact Nat.lt_succ_self 1)
      exact hunmapped
  | unmapped =>
      refine ⟨.finish 0, nofun, hat _ hphase, ?_⟩
      rw [Kiocb.step, Kiocb.withCaio_some hcaio, Kiocb.left_of_some hcaio, hphase]
      have hnone : ((s.put 0 none).log [.free 0 b.work.iocb.log]).caio 0 = none := s.put_self 0 none
      rw [Kiocb.left_of_none hnone]
      exact Nat.lt_succ_self _

/-- **Something can be done as long as the operation is not over.** -/
theorem AioStage.progress {c : AioCall} {s : Kiocb} (h : AioStage c s) (hover : ¬ s.Over) :
    ∃ a, a ≠ .cancel ∧ s.can a = true ∧ (s.step c a).left < s.left := by
  cases h with
  | fresh hseg hrv hnone htrace hopen =>
      refine ⟨.submit, nofun, ?_, Kiocb.left_submit hseg hrv hnone hopen⟩
      unfold Kiocb.can
      simp only
      rw [hrv, htrace]
      rfl
  | refused rv hrv hne hnone htrace => exact absurd ⟨by rw [hrv]; rfl, hnone⟩ hover
  | busy b hio hseg hrv hcaio hnone hkept hpages htrace =>
      exact AioPhase.progress hseg hcaio hkept
  | freed rv log hio hseg hrv hnone hpages htrace =>
      rcases hrv with hrv | hrv
      · refine ⟨.submit, nofun, ?_, ?_⟩
        · unfold Kiocb.can
          simp only
          rw [hrv, htrace]
          rfl
        · have hcaio : (Kiocb.caio { s with rv := some eiocbqueued }) 0 = none := hnone 0
          rw [Kiocb.step, Kiocb.submit_end hio hseg, Kiocb.left_of_none hcaio,
            Kiocb.left_of_none (hnone 0), if_neg (Option.some_ne_none _), if_pos hrv, hseg]
          show 0 + s.others.toNat < 10 + s.others.toNat
          omega
      · exact absurd ⟨by rw [hrv]; rfl, hnone⟩ hover

/-- **Every stage can be brought to the end.** -/
theorem AioStage.ends {c : AioCall} {s : Kiocb} (h : AioStage c s) : s.Ends c := by
  induction hn : s.left using Nat.strong_induction_on generalizing s with
  | _ n ih =>
      by_cases hover : s.Over
      · exact ⟨[], s, fun a ha => absurd ha List.not_mem_nil, Run.nil, hover⟩
      obtain ⟨a, ha, hcan, hlt⟩ := h.progress hover
      obtain ⟨acts, s', hno, hrun, hend⟩ := ih _ (hn ▸ hlt) (h.step hcan ha) rfl
      refine ⟨[a] ++ acts, s', ?_, Run.append (Run.one hcan) hrun, hend⟩
      intro a' ha'
      rcases List.mem_cons.mp ha' with rfl | hmem
      · exact ha
      · exact hno a' hmem

/-- **When an operation completes once**: in every run of one that has a single segment, which is
mapped, or that is refused at its first, as long as nobody cancels it.  And from every state reached
it can be brought to its end. -/
theorem aio_completes (c : AioCall) (hsound : c.Sound) (acts : List AioAct) (s : Kiocb)
    (hrun : AioRun c c.start acts s) (hno : NoCancel acts) :
    CompletesOnce c.io.length s ∧ s.Ends c :=
  ⟨(hsound.stages hrun hno).completesOnce, (hsound.stages hrun hno).ends⟩

/-- Where a list of steps leads. -/
def AioCall.after (c : AioCall) (acts : List AioAct) : Kiocb :=
  acts.foldl (fun s a => Kiocb.step c s a) c.start

/-- A list of steps that can be taken is a run. -/
theorem AioCall.run_after (c : AioCall) (acts : List AioAct)
    (h : admits (fun s a => Kiocb.step c s a) (fun s a => s.can a = true) c.start acts = true) :
    AioRun c c.start acts (c.after acts) :=
  Run.of_admits acts h

/-- A write of a vector. -/
def aioWriteCall (io : List IoVec) (env : ℕ → AioEnv) : AioCall where
  k := 12
  x := bothQueues
  write := true
  io := io
  pos := 0
  env := env

/-- The steps of the handler of a segment of which `rv` bytes are transferred. -/
def handlerActs (i : ℕ) (rv : ℤ) : List AioAct :=
  [.handle i, .fpRw i rv, .kiComplete i, .unmap i, .finish i]

/-- One segment is written. -/
theorem aio_completes_5000 :
    CompletesOnce 1 ((aioWriteCall [⟨2148, 5000⟩] aioPinsAll).after
        (.submit :: .submit :: handlerActs 0 5000)) ∧
      ((aioWriteCall [⟨2148, 5000⟩] aioPinsAll).after
        (.submit :: .submit :: handlerActs 0 5000)).Ends
          (aioWriteCall [⟨2148, 5000⟩] aioPinsAll) :=
  aio_completes (aioWriteCall [⟨2148, 5000⟩] aioPinsAll)
    (.one ⟨2148, 5000⟩ rfl ⟨rfl, by decide, pinsAll_pins (by decide)⟩)
    (.submit :: .submit :: handlerActs 0 5000) _ (AioCall.run_after _ _ (by decide +kernel))
    (by unfold NoCancel; decide)

/-- The second segment cannot be pinned. -/
def secondFails : ℕ → AioEnv :=
  fun i => if i = 1 then { pins := { pinsAll with answer := .error efault (by decide) } }
    else { pins := pinsAll }

/-- **Operations that do not complete once.**  Two segments: each of them completes the `kiocb`.
The second one fails: it is completed although the call has returned the error.  One that is
cancelled: it is never completed, and its page is never put.  And none at all: it is never
completed. -/
theorem aio_not_once :
    (∃ acts s, AioRun (aioWriteCall [⟨4096, 4096⟩, ⟨16384, 8192⟩] aioPinsAll) {} acts s ∧
      NoCancel acts ∧ completions s.trace = [4096, 4096] ∧ ¬ CompletesOnce 2 s) ∧
    (∃ acts s, AioRun (aioWriteCall [⟨4096, 4096⟩, ⟨16384, 8192⟩] secondFails) {} acts s ∧
      NoCancel acts ∧ s.rv = some efault ∧ completions s.trace = [4096] ∧ ¬ CompletesOnce 2 s) ∧
    (∃ acts s, AioRun (aioWriteCall [⟨4096, 4096⟩] aioPinsAll) {} acts s ∧
      s.rv = some eiocbqueued ∧ completions s.trace = [] ∧
        frees s.trace = [(0, [.kzallocSgl, .kmallocPages, .pin 1])] ∧ ¬ CompletesOnce 1 s) ∧
    ∃ acts s, AioRun (aioWriteCall [] aioPinsAll) {} acts s ∧ NoCancel acts ∧ s.Over ∧
      s.rv = some eiocbqueued ∧ completions s.trace = [] ∧ ¬ CompletesOnce 0 s := by
  refine ⟨?_, ?_, ?_, ?_⟩
  · have hrun := AioCall.run_after (aioWriteCall [⟨4096, 4096⟩, ⟨16384, 8192⟩] aioPinsAll)
      (.submit :: .submit :: .submit :: handlerActs 0 4096 ++ handlerActs 1 4096)
      (by decide +kernel)
    have hcomp : completions ((aioWriteCall [⟨4096, 4096⟩, ⟨16384, 8192⟩] aioPinsAll).after
        (.submit :: .submit :: .submit :: handlerActs 0 4096 ++ handlerActs 1 4096)).trace =
          [4096, 4096] := by decide +kernel
    refine ⟨_, _, hrun, by unfold NoCancel; decide, hcomp, fun h => ?_⟩
    have honce := h.once
    rw [hcomp] at honce
    exact absurd honce (by decide)
  · have hrun := AioCall.run_after (aioWriteCall [⟨4096, 4096⟩, ⟨16384, 8192⟩] secondFails)
      (.submit :: .submit :: handlerActs 0 4096) (by decide +kernel)
    have hrv : ((aioWriteCall [⟨4096, 4096⟩, ⟨16384, 8192⟩] secondFails).after
        (.submit :: .submit :: handlerActs 0 4096)).rv = some efault := by decide +kernel
    have hcomp : completions ((aioWriteCall [⟨4096, 4096⟩, ⟨16384, 8192⟩] secondFails).after
        (.submit :: .submit :: handlerActs 0 4096)).trace = [4096] := by decide +kernel
    refine ⟨_, _, hrun, by unfold NoCancel; decide, hrv, hcomp, fun h => ?_⟩
    have hnever := h.never efault hrv (by decide)
    rw [hcomp] at hnever
    exact absurd hnever (by decide)
  · have hrun := AioCall.run_after (aioWriteCall [⟨4096, 4096⟩] aioPinsAll)
      [.submit, .submit, .cancel, .cancelled 0, .handle 0] (by decide +kernel)
    have hfrees : frees ((aioWriteCall [⟨4096, 4096⟩] aioPinsAll).after
        [.submit, .submit, .cancel, .cancelled 0, .handle 0]).trace =
          [(0, [.kzallocSgl, .kmallocPages, .pin 1])] := by decide +kernel
    refine ⟨_, _, hrun, by decide +kernel, by decide +kernel, hfrees, fun h => ?_⟩
    have hpages := (h.pages _ (hfrees ▸ List.mem_cons_self)).pages 1
    exact absurd hpages (by decide)
  · have hrun := AioCall.run_after (aioWriteCall [] aioPinsAll) [.submit] (by decide +kernel)
    refine ⟨_, _, hrun, by unfold NoCancel; decide, ⟨rfl, fun _ => rfl⟩, rfl, rfl, fun h => ?_⟩
    exact (h.closed ⟨rfl, fun _ => rfl⟩).1 rfl rfl

end Qdma
