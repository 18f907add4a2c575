/-
# Changing the number of queue pairs

`qdma_set_qmax` takes a device down and sets it up again with fewer queue pairs, as long as no
queue has been added.  It returns success whatever comes of that, and it overwrites the number
that it compares the next value with.

`set_qmax_runs_iff` says in which sequences of calls each call does all or nothing, and in which
every number up to that of the hardware can still be had: in those in which no call does anything.
-/
import Qdma.Opening
import Qdma.Fmap
import Qdma.IntrCtxt

namespace Qdma

open LockTrace Exec

/-! ## The call -/

/-- A call: the number asked for, a `u32`, and the answers to the new `qdma_device_init`. -/
structure QmaxCall where
  env : OpenEnv
  qsetsMax : ℕ

/-- `xdev->conf.qsets_max = qsets_max`, an `unsigned short`. -/
def OpenState.setQsetsMax (s : OpenState) (n : ℕ) : OpenState :=
  { s with xdev := { s.xdev with conf := { s.xdev.conf with qsetsMax := u16 n } } }

/-- The device is taken down and set up again. -/
def OpenState.reinit (s : OpenState) (c : QmaxCall) : OpenState × ℤ :=
  qdmaDeviceInit ((qdmaDeviceCleanup s).setQsetsMax c.qsetsMax) c.env

/-- `qdma_set_qmax`. -/
def OpenState.setQmax (s : OpenState) (c : QmaxCall) : OpenState × ℤ :=
  match s.xdev.devPriv with
  | none => (s, einval)
  | some qdev =>
      if qdev.initQrange then (s, -1)
      else if c.qsetsMax = s.xdev.conf.qsetsMax then (s, -1)
      else if c.qsetsMax > s.xdev.conf.qsetsMax then (s, -1)
      else
        let (s, rv) := s.reinit c
        -- `rv` goes no further
        (if rv < 0 then qdmaDeviceCleanup s else s, qdmaOperationSuccessful)

/-- The device after a call. -/
def qmaxStep (s : OpenState) (c : QmaxCall) : OpenState := (s.setQmax c).1

/-! ## What is asked of it -/

/-- The device is set up with `n` queue pairs. -/
def OpenState.HasPairs (s : OpenState) (n : ℕ) : Prop :=
  ∃ qdev, s.xdev.devPriv = some qdev ∧ qdev.dev.qmax = n ∧ s.xdev.conf.qsetsMax = n

/-- No queue has been added. -/
def OpenState.NoQueueAdded (s : OpenState) : Prop :=
  ∀ qdev, s.xdev.devPriv = some qdev → qdev.initQrange = false

/-- What the device owns, over what was `held` before it was set up, is what has been taken and not
released: nothing, or its queues and its vectors. -/
structure Accounts (held : List OpenRes) (s : OpenState) : Prop where
  gone : s.xdev.devPriv = none → Holding s.log held
  there : ∀ qdev, s.xdev.devPriv = some qdev → qdev.initQrange = false →
    Holding s.log (.qdev :: (intrHeld s.xdev.numVecs ++ held))

/-- **A call does all or nothing**: on success the device has the queue pairs, on an error it is as
it was, and nothing is leaked or released twice. -/
structure QmaxAtomic (held : List OpenRes) (s : OpenState) (c : QmaxCall) : Prop where
  success : (s.setQmax c).2 = qdmaOperationSuccessful → (qmaxStep s c).HasPairs c.qsetsMax
  error : (s.setQmax c).2 ≠ qdmaOperationSuccessful → qmaxStep s c = s
  clean : Accounts held (qmaxStep s c)

/-- **Every number can still be had**, up to the `hw` pairs of the hardware, as long as no queue is
added. -/
def Restorable (hw : ℕ) (s : OpenState) : Prop :=
  s.NoQueueAdded → ∀ w, 1 ≤ w → w ≤ hw → ∃ cs : List QmaxCall, (cs.foldl qmaxStep s).HasPairs w

/-- Both. -/
def QmaxOk (hw : ℕ) (held : List OpenRes) (s : OpenState) (c : QmaxCall) : Prop :=
  QmaxAtomic held s c ∧ Restorable hw (qmaxStep s c)

/-- **The call is refused**: there is no device, it has queues, or the number is not lower. -/
def QmaxRefused (s : OpenState) (c : QmaxCall) : Prop :=
  ∀ qdev, s.xdev.devPriv = some qdev → qdev.initQrange = true ∨ s.xdev.conf.qsetsMax ≤ c.qsetsMax

/-- **The new set-up works**: there are to be queues, no list of rings is left from an earlier life
of the device, all vectors are requested and there is memory. -/
structure QmaxWorks (s : OpenState) (c : QmaxCall) : Prop where
  queues : c.qsetsMax ≠ 0
  rings : s.xdev.intrCoalEn = false
  intr : c.env.IntrOk s.xdev.conf
  qdev : c.env.qdevMem = true

/-- What is known of a device between calls. -/
structure QmaxInv (held : List OpenRes) (s : OpenState) : Prop where
  accounts : Accounts held s
  poll : s.xdev.conf.pollMode = true → s.xdev.numVecs = 0
  width : s.xdev.conf.qsetsMax < 2 ^ 16

/-- Nothing that setting up a device takes is held. -/
structure NoDevice (held : List OpenRes) : Prop where
  intr : NoIntr held
  qdev : .qdev ∉ held
  rings : .intrRings ∉ held

/-! ## Setting up -/

/-- What setting up a device leaves as it is. -/
structure SetupKeeps (s s' : OpenState) : Prop where
  qsetsMax : s'.xdev.conf.qsetsMax = s.xdev.conf.qsetsMax
  pollMode : s'.xdev.conf.pollMode = s.xdev.conf.pollMode
  numVecs : s.xdev.conf.pollMode = true → s'.xdev.numVecs = s.xdev.numVecs
  log : ∃ ops, s'.log = s.log ++ ops

theorem SetupKeeps.trans {s s' s'' : OpenState} (h : SetupKeeps s s') (h' : SetupKeeps s' s'') :
    SetupKeeps s s'' := by
  obtain ⟨ops, hops⟩ := h.log
  obtain ⟨ops', hops'⟩ := h'.log
  refine ⟨h'.qsetsMax.trans h.qsetsMax, h'.pollMode.trans h.pollMode, fun hp => ?_, ops ++ ops', ?_⟩
  · exact (h'.numVecs (h.pollMode.trans hp)).trans (h.numVecs hp)
  · rw [← List.append_assoc, ← hops]
    exact hops'

/-- The same device, with an empty log. -/
def OpenState.noLog (s : OpenState) : OpenState := { s with log := [] }

/-- What is in the log does not matter to `intr_setup`, which adds to it. -/
theorem intrSetup_log (s : OpenState) (e : OpenEnv) :
    (intrSetup s e).1.log = s.log ++ (intrSetup s.noLog e).1.log ∧
      (intrSetup s e).1.xdev = (intrSetup s.noLog e).1.xdev ∧
      (intrSetup s e).2 = (intrSetup s.noLog e).2 := by
  unfold intrSetup OpenState.noLog
  simp only [OpenState.act, List.nil_append]
  split_ifs
  -- the log is extended only where vectors are requested
  all_goals exact ⟨by simp, rfl, rfl⟩

/-- `intr_setup` has no part in the queues, and succeeds if all vectors are requested. -/
theorem intrSetup_spec (s : OpenState) (e : OpenEnv) :
    SetupKeeps s (intrSetup s e).1 ∧ (intrSetup s e).1.xdev.devPriv = s.xdev.devPriv ∧
      ((intrSetup s e).2 = 0 ↔ e.IntrOk s.xdev.conf) := by
  obtain ⟨hlog, hx, hrv⟩ := intrSetup_log s e
  by_cases hpoll : s.xdev.conf.pollMode = true
  · have hv : e.vecs s.xdev.conf = 0 := if_pos hpoll
    have heq : intrSetup s e = (s, 0) := if_pos hpoll
    rw [heq]
    exact ⟨⟨rfl, rfl, fun _ => rfl, [], (List.append_nil _).symm⟩, rfl,
      iff_of_true rfl (fun h => absurd hv h)⟩
  rw [hrv]
  -- with nothing held, `intrSetup_cases` asks for nothing
  obtain ⟨hok, dvec, log, heq, -⟩ | ⟨hbad, n, log, rv, hne, heq, -⟩ :=
    intrSetup_cases (s := s.noLog) e rfl noIntr_nil (fun h => absurd h hpoll)
  · rw [heq] at hx hlog ⊢
    refine ⟨⟨?_, ?_, fun h => absurd h hpoll, log, hlog⟩, ?_, iff_of_true rfl hok⟩
    all_goals rw [hx]; rfl
  · rw [heq] at hx hlog ⊢
    refine ⟨⟨?_, ?_, fun h => absurd h hpoll, log, hlog⟩, ?_, iff_of_false hne hbad⟩
    all_goals rw [hx]; rfl

/-- **What `qdma_device_init` comes to**: it keeps the number of pairs that is configured, and
gives the device as many of them if it succeeds. -/
theorem qdmaDeviceInit_spec (s : OpenState) (e : OpenEnv) :
    SetupKeeps s (qdmaDeviceInit s e).1 ∧
      ((qdmaDeviceInit s e).2 = 0 ↔
        e.IntrOk s.xdev.conf ∧ s.xdev.conf.qsetsMax ≠ 0 ∧ e.qdevMem = true) ∧
      ((qdmaDeviceInit s e).2 = 0 → ∃ qdev, (qdmaDeviceInit s e).1.xdev.devPriv = some qdev ∧
        qdev.dev.qmax = s.xdev.conf.qsetsMax ∧ qdev.initQrange = false) ∧
      ((qdmaDeviceInit s e).2 ≠ 0 → (qdmaDeviceInit s e).2 < 0 ∧
        (qdmaDeviceInit s e).1.xdev.devPriv = s.xdev.devPriv) := by
  unfold qdmaDeviceInit
  simp only
  -- a VF goes on with function id 0; nothing below depends on which it is
  generalize hfn : (if e.build = .vf then (0 : Fin 256) else e.funcId) = funcId
  obtain ⟨hk, hdev, hiff⟩ := intrSetup_spec { s with xdev := { s.xdev with funcId := funcId } } e
  generalize intrSetup { s with xdev := { s.xdev with funcId := funcId } } e = r at hk hdev hiff ⊢
  obtain ⟨hmax, hpoll, hvecs, ops, hlog⟩ := hk
  simp only at hmax hpoll hvecs hlog hdev hiff
  have heinval : einval ≠ 0 := by decide
  by_cases hrv : r.2 ≠ 0
  · rw [if_pos hrv]
    exact ⟨⟨hmax, hpoll, hvecs, ops, hlog⟩,
      iff_of_false heinval (fun h => hrv (hiff.mpr h.1)), fun h => absurd h heinval,
      fun _ => ⟨show einval < 0 by decide, hdev⟩⟩
  rw [if_neg hrv]
  have hok := hiff.mp (not_not.mp hrv)
  -- this return comes after the vectors are requested, and leaves them so
  by_cases hq : r.1.xdev.conf.qsetsMax = 0
  · rw [if_pos hq]
    exact ⟨⟨hmax, hpoll, hvecs, ops, hlog⟩,
      iff_of_false heinval (fun h => h.2.1 (hmax.symm.trans hq)), fun h => absurd h heinval,
      fun _ => ⟨show einval < 0 by decide, hdev⟩⟩
  rw [if_neg hq]
  cases hmem : e.qdevMem with
  | false =>
      rw [if_pos (show (!false) = true from rfl)]
      have henomem : enomem ≠ 0 := by decide
      refine ⟨⟨hmax, hpoll, hvecs, ?_⟩, iff_of_false henomem ?_, fun h => absurd h henomem,
        fun _ => ⟨show enomem < 0 by decide, hdev⟩⟩
      · unfold intrTeardown OpenState.act
        simp only [hlog, List.append_assoc]
        exact ⟨_, rfl⟩
      · rintro ⟨-, -, h⟩
        exact Bool.false_ne_true h
  | true =>
      rw [if_neg (show ¬ (!true) = true by decide)]
      refine ⟨⟨hmax, hpoll, hvecs, ops ++ [.lock .qdev], ?_⟩,
        iff_of_true rfl ⟨hok, hmax ▸ hq, rfl⟩, fun _ => ⟨_, rfl, hmax, rfl⟩, fun h => absurd rfl h⟩
      show r.1.log ++ _ = _
      rw [hlog, List.append_assoc]

/-- `qdma_device_cleanup` keeps what is configured. -/
theorem qdmaDeviceCleanup_spec (s : OpenState) :
    SetupKeeps s (qdmaDeviceCleanup s) ∧ (qdmaDeviceCleanup s).xdev.devPriv = none := by
  unfold qdmaDeviceCleanup
  cases hdev : s.xdev.devPriv with
  | none => exact ⟨⟨rfl, rfl, fun _ => rfl, [], (List.append_nil _).symm⟩, hdev⟩
  | some qdev =>
      simp only
      cases hc : s.xdev.intrCoalEn with
      | false =>
          rw [show (intrTeardown s).xdev.intrCoalEn = false from hc,
            if_neg (show ¬ false = true by decide)]
          refine ⟨⟨rfl, rfl, fun _ => rfl, ?_⟩, rfl⟩
          simp only [OpenState.act, intrTeardown, List.append_assoc]
          exact ⟨_, rfl⟩
      | true =>
          rw [show (intrTeardown s).xdev.intrCoalEn = true from hc, if_pos rfl]
          refine ⟨⟨rfl, rfl, fun _ => rfl, ?_⟩, rfl⟩
          simp only [OpenState.act, intrTeardown, List.append_assoc]
          exact ⟨_, rfl⟩

/-! ## A call -/

theorem QmaxRefused.eq {s : OpenState} {c : QmaxCall} (h : QmaxRefused s c) :
    qmaxStep s c = s ∧ (s.setQmax c).2 ≠ qdmaOperationSuccessful := by
  unfold qmaxStep OpenState.setQmax
  cases hdev : s.xdev.devPriv with
  | none => exact ⟨rfl, show einval ≠ qdmaOperationSuccessful by decide⟩
  | some qdev =>
      simp only
      have hneg : (-1 : ℤ) ≠ qdmaOperationSuccessful := by decide
      by_cases hq : qdev.initQrange = true
      · rw [if_pos hq]
        exact ⟨rfl, hneg⟩
      rw [if_neg hq]
      by_cases heq : c.qsetsMax = s.xdev.conf.qsetsMax
      · rw [if_pos heq]
        exact ⟨rfl, hneg⟩
      rw [if_neg heq, if_pos (lt_of_le_of_ne ((h qdev hdev).resolve_left hq) (Ne.symm heq))]
      exact ⟨rfl, hneg⟩

/-- A call that is not refused. -/
structure QmaxTaken (s : OpenState) (c : QmaxCall) : Prop where
  there : ∃ qdev, s.xdev.devPriv = some qdev ∧ qdev.initQrange = false
  lower : c.qsetsMax < s.xdev.conf.qsetsMax

theorem qmaxTaken_iff {s : OpenState} {c : QmaxCall} : QmaxTaken s c ↔ ¬ QmaxRefused s c := by
  constructor
  · rintro ⟨⟨qdev, hdev, hq⟩, hlt⟩ href
    rcases href qdev hdev with h | h
    · exact Bool.false_ne_true (hq.symm.trans h)
    · exact absurd hlt (not_lt.mpr h)
  · intro h
    unfold QmaxRefused at h
    push Not at h
    obtain ⟨qdev, hdev, hq, hlt⟩ := h
    exact ⟨⟨qdev, hdev, Bool.eq_false_of_not_eq_true hq⟩, hlt⟩

/-- **It succeeds, whatever comes of it.** -/
theorem QmaxTaken.eq {s : OpenState} {c : QmaxCall} (h : QmaxTaken s c) :
    s.setQmax c = (if (s.reinit c).2 < 0 then qdmaDeviceCleanup (s.reinit c).1
      else (s.reinit c).1, qdmaOperationSuccessful) := by
  obtain ⟨⟨qdev, hdev, hq⟩, hlt⟩ := h
  unfold OpenState.setQmax
  rw [hdev]
  simp only
  rw [if_neg (ne_of_eq_of_ne hq Bool.false_ne_true), if_neg hlt.ne, if_neg (not_lt.mpr hlt.le)]

/-- What is left of the device that is taken down: the configuration, with the new number. -/
theorem QmaxTaken.keeps {s : OpenState} {c : QmaxCall} (h : QmaxTaken s c) :
    SetupKeeps ((qdmaDeviceCleanup s).setQsetsMax c.qsetsMax) (qmaxStep s c) := by
  have hinit : SetupKeeps ((qdmaDeviceCleanup s).setQsetsMax c.qsetsMax) (s.reinit c).1 :=
    (qdmaDeviceInit_spec _ c.env).1
  unfold qmaxStep
  rw [h.eq]
  by_cases hrv : (s.reinit c).2 < 0
  · rw [if_pos hrv]
    exact hinit.trans (qdmaDeviceCleanup_spec _).1
  · rw [if_neg hrv]
    exact hinit

/-- **The device that is left**: the one with the new number of pairs, or none. -/
theorem QmaxTaken.device {s : OpenState} {c : QmaxCall} (h : QmaxTaken s c)
    (hw : s.xdev.conf.qsetsMax < 2 ^ 16) :
    (qmaxStep s c).xdev.conf.qsetsMax = c.qsetsMax ∧ (qmaxStep s c).NoQueueAdded ∧
      ((qmaxStep s c).HasPairs c.qsetsMax ↔
        c.qsetsMax ≠ 0 ∧ c.env.IntrOk s.xdev.conf ∧ c.env.qdevMem = true) := by
  have hu : u16 c.qsetsMax = c.qsetsMax := Nat.mod_eq_of_lt (h.lower.trans hw)
  have hmax : (qmaxStep s c).xdev.conf.qsetsMax = c.qsetsMax := h.keeps.qsetsMax.trans hu
  refine ⟨hmax, ?_⟩
  obtain ⟨hk, hnone⟩ := qdmaDeviceCleanup_spec s
  obtain ⟨-, hiff, hpos, hneg⟩ :=
    qdmaDeviceInit_spec ((qdmaDeviceCleanup s).setQsetsMax c.qsetsMax) c.env
  rw [show ((qdmaDeviceCleanup s).setQsetsMax c.qsetsMax).xdev.conf.qsetsMax = c.qsetsMax from hu]
    at hiff hpos
  rw [show ((qdmaDeviceCleanup s).setQsetsMax c.qsetsMax).xdev.devPriv = none from hnone] at hneg
  have hintr : c.env.IntrOk ((qdmaDeviceCleanup s).setQsetsMax c.qsetsMax).xdev.conf ↔
      c.env.IntrOk s.xdev.conf := by
    unfold OpenEnv.IntrOk OpenEnv.vecs
    rw [show ((qdmaDeviceCleanup s).setQsetsMax c.qsetsMax).xdev.conf.pollMode =
      s.xdev.conf.pollMode from hk.pollMode]
  rw [hintr] at hiff
  change (s.reinit c).2 = 0 ↔ _ at hiff
  by_cases hrv : (s.reinit c).2 = 0
  · -- the device is the new one
    obtain ⟨qdev, hdev, hq, hadd⟩ := hpos hrv
    have hstep : qmaxStep s c = (s.reinit c).1 := by
      unfold qmaxStep
      rw [h.eq, if_neg (not_lt.mpr hrv.ge)]
    have hdev' : (qmaxStep s c).xdev.devPriv = some qdev := hstep ▸ hdev
    obtain ⟨hok, hne, hmem⟩ := hiff.mp hrv
    refine ⟨fun qdev' hd => ?_, iff_of_true ⟨qdev, hdev', hq, hmax⟩ ⟨hne, hok, hmem⟩⟩
    exact Option.some.inj (hdev'.symm.trans hd) ▸ hadd
  · -- there is none, and the cleanup that follows finds nothing to do
    obtain ⟨hlt, hd⟩ := hneg hrv
    have hstep : qmaxStep s c = (s.reinit c).1 := by
      unfold qmaxStep
      rw [h.eq, if_pos (show (s.reinit c).2 < 0 from hlt)]
      exact qdmaDeviceCleanup_none hd
    have hdev' : (qmaxStep s c).xdev.devPriv = none := hstep ▸ hd
    refine ⟨fun qdev' hd' => absurd (hdev'.symm.trans hd') (Option.some_ne_none _).symm,
      iff_of_false ?_ ?_⟩
    · rintro ⟨qdev, hd', -⟩
      exact absurd (hdev'.symm.trans hd') (Option.some_ne_none _).symm
    · rintro ⟨hne, hok, hmem⟩
      exact hrv (hiff.mpr ⟨hok, hne, hmem⟩)

/-- The list of rings of an earlier life is released again. -/
theorem cleanup_rings {s : OpenState} {qdev : IdDev} {held : List OpenRes}
    (hdev : s.xdev.devPriv = some qdev)
    (h : Holding s.log (.qdev :: (intrHeld s.xdev.numVecs ++ held)))
    (hcoal : s.xdev.intrCoalEn = true) (hn : NoDevice held) :
    run [] (qdmaDeviceCleanup s).log = none := by
  have hqdev : NoIntr [.qdev] :=
    ⟨fun hm => OpenRes.noConfusion (List.mem_singleton.mp hm),
      fun i hm => OpenRes.noConfusion (List.mem_singleton.mp hm)⟩
  have hlog : run [] (intrTeardown s).log = some (.qdev :: held) :=
    h.append (run_intrTeardown hqdev held s.xdev.numVecs)
  have hrings : OpenRes.intrRings ∉ OpenRes.qdev :: held := by
    rw [List.mem_cons]
    rintro (hm | hm)
    · exact OpenRes.noConfusion hm
    · exact hn.rings hm
  unfold qdmaDeviceCleanup
  rw [hdev]
  simp only
  rw [show (intrTeardown s).xdev.intrCoalEn = true from hcoal, if_pos rfl]
  show run [] ((intrTeardown s).log ++ [.unlock .intrRings] ++ [.unlock .qdev]) = none
  rw [List.append_assoc, run_append, hlog, Option.bind_some, List.singleton_append, run,
    if_neg hrings]

/-- **A call that gives the device its queues leaks nothing** just when no list of rings is left
from an earlier life. -/
theorem QmaxTaken.accounts {s : OpenState} {c : QmaxCall} {held : List OpenRes}
    (h : QmaxTaken s c) (hi : QmaxInv held s) (hn : NoDevice held)
    (hpairs : (qmaxStep s c).HasPairs c.qsetsMax) :
    Accounts held (qmaxStep s c) ↔ s.xdev.intrCoalEn = false := by
  obtain ⟨qdev, hdev, hq⟩ := h.there
  have hlog := hi.accounts.there qdev hdev hq
  obtain ⟨qdev', hdev', -, -⟩ := hpairs
  have hadd := (h.device hi.width).2.1 qdev' hdev'
  constructor
  · -- after a second release of the rings nothing can be in order any more
    intro hacc
    by_contra hcoal
    obtain ⟨ops, hops⟩ := h.keeps.log
    have hrun := hacc.there qdev' hdev' hadd
    unfold Holding at hrun
    rw [hops, run_append] at hrun
    have hnone := cleanup_rings hdev hlog (Bool.eq_true_of_not_eq_false hcoal) hn
    rw [show ((qdmaDeviceCleanup s).setQsetsMax c.qsetsMax).log = (qdmaDeviceCleanup s).log
      from rfl, hnone] at hrun
    exact absurd hrun.symm (Option.some_ne_none _)
  · intro hcoal
    obtain ⟨-, hgone⟩ := qdmaDeviceCleanup_some hdev hlog hcoal
    have hk := (qdmaDeviceCleanup_spec s).1
    have hpoll : (qdmaDeviceCleanup s).xdev.conf.pollMode = true →
        (qdmaDeviceCleanup s).xdev.numVecs = 0 := by
      intro hp
      rw [hk.pollMode] at hp
      exact (hk.numVecs hp).trans (hi.poll hp)
    have hnew : HasNoQueues ((qdmaDeviceCleanup s).setQsetsMax c.qsetsMax) held :=
      ⟨hgone.log, hgone.devPriv⟩
    obtain ⟨s', rv, heq, -, hcase⟩ := qdmaDeviceInit_cases c.env hnew hn.intr hn.qdev hpoll
    have hstep : qmaxStep s c = if rv < 0 then qdmaDeviceCleanup s' else s' := by
      unfold qmaxStep
      rw [h.eq, show s.reinit c = (s', rv) from heq]
    have hsome : rv < 0 → s'.xdev.devPriv ≠ none := by
      intro hneg hnone
      rw [hstep, if_pos hneg, qdmaDeviceCleanup_none hnone, hnone] at hdev'
      exact absurd hdev'.symm (Option.some_ne_none _)
    obtain ⟨hrv, -, -, -, hhas⟩ | ⟨hneg, -, hno⟩ | ⟨hneg, -, -, -, hno⟩ := hcase
    · rw [hstep, if_neg (not_lt.mpr hrv.ge)]
      obtain ⟨q, hsq, -⟩ := hhas.queues
      refine ⟨fun hnone => absurd (hsq.symm.trans hnone) (Option.some_ne_none q), fun _ _ _ => ?_⟩
      rw [hhas.numVecs]
      exact hhas.log
    · exact absurd hno.devPriv (hsome hneg)
    · exact absurd hno.devPriv (hsome hneg)

/-- **When a call does all or nothing**, and what is known of the device stays. -/
theorem qmax_call {s : OpenState} {held : List OpenRes} (hi : QmaxInv held s) (hn : NoDevice held)
    (c : QmaxCall) :
    (QmaxAtomic held s c ↔ QmaxRefused s c ∨ QmaxWorks s c) ∧
      (QmaxRefused s c ∨ QmaxWorks s c → QmaxInv held (qmaxStep s c)) := by
  by_cases href : QmaxRefused s c
  · obtain ⟨heq, hrv⟩ := href.eq
    refine ⟨iff_of_true ⟨fun h => absurd h hrv, fun _ => heq, ?_⟩ (.inl href), fun _ => ?_⟩
    · exact heq.symm ▸ hi.accounts
    · exact heq.symm ▸ hi
  have ht := qmaxTaken_iff.mpr href
  obtain ⟨hmax, -, hpairs⟩ := ht.device hi.width
  have hrv : (s.setQmax c).2 = qdmaOperationSuccessful := by rw [ht.eq]
  have hiff : QmaxAtomic held s c ↔ QmaxWorks s c := by
    constructor
    · rintro ⟨hsucc, -, hclean⟩
      have hp := hsucc hrv
      obtain ⟨hne, hok, hmem⟩ := hpairs.mp hp
      exact ⟨hne, (ht.accounts hi hn hp).mp hclean, hok, hmem⟩
    · rintro ⟨hne, hcoal, hok, hmem⟩
      have hp := hpairs.mpr ⟨hne, hok, hmem⟩
      exact ⟨fun _ => hp, fun h => absurd hrv h, (ht.accounts hi hn hp).mpr hcoal⟩
  refine ⟨hiff.trans (or_iff_right href).symm, fun hor => ?_⟩
  -- the invariant: the accounts are part of what is asked of the call
  have hk := (qdmaDeviceCleanup_spec s).1
  refine ⟨(hiff.mpr (hor.resolve_left href)).clean, fun hp => ?_, ?_⟩
  · have hp' : s.xdev.conf.pollMode = true := by
      rw [← hk.pollMode]
      exact ht.keeps.pollMode.symm.trans hp
    exact ((ht.keeps.numVecs (hk.pollMode.trans hp')).trans (hk.numVecs hp')).trans (hi.poll hp')
  · rw [hmax]
    exact ht.lower.trans hi.width

/-! ## Calls, one after the other -/

/-- The numbers only go down. -/
theorem qmaxStep_le (s : OpenState) (c : QmaxCall) :
    (qmaxStep s c).xdev.conf.qsetsMax ≤ s.xdev.conf.qsetsMax := by
  by_cases href : QmaxRefused s c
  · rw [href.eq.1]
  · have ht := qmaxTaken_iff.mpr href
    rw [ht.keeps.qsetsMax]
    exact (Nat.mod_le _ _).trans ht.lower.le

theorem qmaxSteps_le (cs : List QmaxCall) (s : OpenState) :
    (cs.foldl qmaxStep s).xdev.conf.qsetsMax ≤ s.xdev.conf.qsetsMax := by
  induction cs generalizing s with
  | nil => exact le_rfl
  | cons c cs ih => exact (ih (qmaxStep s c)).trans (qmaxStep_le s c)

/-- A device with all the pairs of the hardware. -/
structure QmaxFull (hw : ℕ) (s : OpenState) : Prop where
  qsetsMax : s.xdev.conf.qsetsMax = hw
  pairs : s.NoQueueAdded → s.HasPairs hw

/-- With answers that are all good the vectors are requested. -/
theorem intrOk_default (b : QdmaBuild) (conf : QdmaDevConf) :
    OpenEnv.IntrOk { build := b } conf := by
  intro hv
  refine ⟨?_, fun _ _ => rfl⟩
  have hvecs : OpenEnv.vecs { build := b } conf = 8 := by
    unfold OpenEnv.vecs at hv ⊢
    by_cases hpoll : conf.pollMode = true
    · exact absurd (if_pos hpoll) hv
    · exact if_neg hpoll
  rw [hvecs]
  exact (by decide : ¬ pciEnableMsixExact 8 ⟨0, errno_zero⟩ < 0)

/-- As long as it has all of them, it can be given fewer. -/
theorem QmaxFull.restorable {hw : ℕ} {s : OpenState} (h : QmaxFull hw s) (hwidth : hw < 2 ^ 16) :
    Restorable hw s := by
  rintro hadd w hw1 hwhw
  rcases Nat.eq_or_lt_of_le hwhw with rfl | hlt
  · exact ⟨[], h.pairs hadd⟩
  · obtain ⟨qdev, hdev, -⟩ := h.pairs hadd
    refine ⟨[{ env := { build := .vf }, qsetsMax := w }], ?_⟩
    have ht : QmaxTaken s { env := { build := .vf }, qsetsMax := w } :=
      ⟨⟨qdev, hdev, hadd qdev hdev⟩, h.qsetsMax ▸ hlt⟩
    exact (ht.device (h.qsetsMax ▸ hwidth)).2.2.mpr
      ⟨Nat.one_le_iff_ne_zero.mp hw1, intrOk_default _ _, rfl⟩

/-- Once a call is taken, the pairs it has given up cannot be had. -/
theorem QmaxTaken.not_restorable {s : OpenState} {c : QmaxCall} (h : QmaxTaken s c)
    (hw : s.xdev.conf.qsetsMax < 2 ^ 16) : ¬ Restorable s.xdev.conf.qsetsMax (qmaxStep s c) := by
  obtain ⟨hmax, hadd, -⟩ := h.device hw
  intro hres
  -- the number the device had before is one of those that should be had again
  obtain ⟨cs, qdev, -, -, hpairs⟩ := hres hadd _ (Nat.one_le_of_lt h.lower) le_rfl
  have hle := qmaxSteps_le cs (qmaxStep s c)
  rw [hpairs, hmax] at hle
  exact absurd h.lower (not_lt.mpr hle)

/-- **When every call is all or nothing**, and when every number can still be had: in a sequence of
calls each does all or nothing exactly if each is refused or works; and if the device starts with
all the pairs of the hardware, each also leaves all numbers to be had exactly if each is
refused. -/
theorem set_qmax_runs_iff {s₀ : OpenState} {held : List OpenRes} (hinv : QmaxInv held s₀)
    (hn : NoDevice held) (cs : List QmaxCall) :
    ((∀ pre c post, cs = pre ++ c :: post → QmaxAtomic held (pre.foldl qmaxStep s₀) c) ↔
        ∀ pre c post, cs = pre ++ c :: post →
          QmaxRefused (pre.foldl qmaxStep s₀) c ∨ QmaxWorks (pre.foldl qmaxStep s₀) c) ∧
      ∀ hw, QmaxFull hw s₀ →
        ((∀ pre c post, cs = pre ++ c :: post → QmaxOk hw held (pre.foldl qmaxStep s₀) c) ↔
          ∀ pre c post, cs = pre ++ c :: post → QmaxRefused (pre.foldl qmaxStep s₀) c) := by
  constructor
  · exact calls_iff (P := fun _ => True) hinv (fun s c h _ hl => (qmax_call h hn c).2 hl)
      (fun s c h _ => (qmax_call h hn c).1) (fun _ _ => trivial)
  · rintro hw hfull
    refine calls_iff (P := fun _ => True) (I := fun s => QmaxInv held s ∧ QmaxFull hw s)
      ⟨hinv, hfull⟩ ?_ ?_ (fun _ _ => trivial)
    · rintro s c ⟨hs, hf⟩ - href
      rw [href.eq.1]
      exact ⟨hs, hf⟩
    · rintro s c ⟨hs, hf⟩ -
      constructor
      · rintro ⟨-, hres⟩
        by_contra href
        refine (qmaxTaken_iff.mpr href).not_restorable hs.width ?_
        rw [hf.qsetsMax]
        exact hres
      · intro href
        refine ⟨(qmax_call hs hn c).1.mpr (.inl href), ?_⟩
        rw [href.eq.1]
        exact hf.restorable (hf.qsetsMax ▸ hs.width)

/-- A PF with 32 queue pairs and two vectors, before its first queue is added. -/
def pfWith32 : OpenState :=
  (qdmaDeviceInit
    { list := [], xdev := { conf := { pdev := none, qsetsMax := 32 } }, numVf := 0, log := [] }
    { build := .pf false, msixVecCount := 2 }).1

theorem pfWith32_inv : QmaxInv [] pfWith32 where
  accounts := by
    refine ⟨fun h => absurd h (Option.some_ne_none _), fun qdev _ _ => ?_⟩
    exact (by decide :
      run [] pfWith32.log = some (.qdev :: (intrHeld pfWith32.xdev.numVecs ++ [])))
  poll := fun h => absurd h (by decide)
  width := by decide

theorem noDevice_nil : NoDevice [] := ⟨noIntr_nil, List.not_mem_nil, List.not_mem_nil⟩

theorem pfWith32_full : QmaxFull 32 pfWith32 := ⟨rfl, fun _ => ⟨_, rfl, rfl, rfl⟩⟩

/-- A call for 64 pairs, which is refused. -/
def tooMany : QmaxCall := { env := { build := .pf false }, qsetsMax := 64 }

theorem tooMany_refused : QmaxRefused pfWith32 tooMany := fun _ _ => .inr (by decide)

/-- It and one for 8 pairs. -/
def twoQmax : List QmaxCall := [tooMany, { env := { build := .pf false }, qsetsMax := 8 }]

/-- Both calls do all or nothing, and after the first alone every number can still be had. -/
theorem set_qmax_runs_two :
    (∀ pre c post, twoQmax = pre ++ c :: post → QmaxAtomic [] (pre.foldl qmaxStep pfWith32) c) ∧
      ∀ pre c post, [tooMany] = pre ++ c :: post →
        QmaxOk 32 [] (pre.foldl qmaxStep pfWith32) c := by
  constructor
  · have hrun : Run qmaxStep (fun s c => QmaxRefused s c ∨ QmaxWorks s c) pfWith32 twoQmax
        (twoQmax.foldl qmaxStep pfWith32) :=
      (Run.nil.snoc (.inl tooMany_refused)).snoc
        (.inr ⟨by decide, by decide, fun _ => ⟨by decide, fun _ _ => rfl⟩, rfl⟩)
    exact (set_qmax_runs_iff pfWith32_inv noDevice_nil twoQmax).1.mpr
      (fun _ _ _ heq => (hrun.cut heq).2)
  · exact ((set_qmax_runs_iff pfWith32_inv noDevice_nil [tooMany]).2 32 pfWith32_full).mpr
      (along_cons.mpr ⟨tooMany_refused, along_nil⟩)

/-- 8 pairs, with a vector that is refused. -/
def noVector : QmaxCall :=
  { env := { build := .pf false, msixVecCount := 2, requestIrq := fun _ => ⟨-16, by decide⟩ },
    qsetsMax := 8 }

/-- No pairs. -/
def noPairs : QmaxCall := { env := { build := .pf false, msixVecCount := 2 }, qsetsMax := 0 }

/-- 8 pairs, and nothing fails. -/
def fewer : QmaxCall := { env := { build := .pf false, msixVecCount := 2 }, qsetsMax := 8 }

/-- **Three calls that are not all or nothing**: a vector is refused, and there is no device; no
pairs are asked for, and two vectors and MSI-X stay as well; both are successes.  And after one
with 8 pairs the 32 of the hardware are refused. -/
theorem set_qmax_loses :
    (pfWith32.setQmax noVector).2 = qdmaOperationSuccessful ∧
      (qmaxStep pfWith32 noVector).xdev.devPriv = none ∧
      (pfWith32.setQmax noPairs).2 = qdmaOperationSuccessful ∧
      run [] (qmaxStep pfWith32 noPairs).log = some [.irq 1, .irq 0, .msix] ∧
      ((qmaxStep pfWith32 fewer).setQmax { fewer with qsetsMax := 32 }).2 = -1 ∧
      ¬ QmaxOk 32 [] pfWith32 noVector ∧ ¬ QmaxOk 32 [] pfWith32 fewer := by
  have hnone : (qmaxStep pfWith32 noVector).xdev.devPriv = none := rfl
  have htaken : QmaxTaken pfWith32 fewer := ⟨⟨_, rfl, rfl⟩, by decide⟩
  refine ⟨rfl, hnone, rfl, by decide, by decide, ?_, ?_⟩
  · rintro ⟨⟨hsucc, -, -⟩, -⟩
    obtain ⟨qdev, hdev, -⟩ := hsucc rfl
    exact absurd (hnone.symm.trans hdev) (Option.some_ne_none qdev).symm
  · rintro ⟨-, hres⟩
    exact htaken.not_restorable (by decide) hres

end Qdma
