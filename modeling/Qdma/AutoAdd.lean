/-
# Adding queues with automatic indices

`xnl_q_add` calls `xpdev_queue_add` for every queue of a command, with one configuration.  If the
index is automatic, `qdma_queue_add` writes the index it has chosen into the configuration, and the
second queue of a pair is added with it; so is every queue after that.

`auto_add_iff` says when a command adds as many queues or pairs as it should: when that is at most
one, on an index that is free in both directions of a pair.
-/
import Qdma.QueueCmds
import Qdma.XpdevAdd

namespace Qdma

open Sweep

/-! ## The command -/

/-- What a call of `xpdev_queue_add` is answered: the room in the buffer, and the rest. -/
structure AddEnv where
  buflen : Option ℕ := some 2048
  prep : PrepEnv := {}
  create : CreateEnv := {}

/-- The state of `xnl_q_add`; `added` has the queues whose calls have succeeded, and `sent` what is
sent, piece by piece. -/
structure AddState where
  dev : XpDev
  added : List QRef := []
  rv : ℤ := 0
  sent : List Sent := []

/-- The call of `xpdev_queue_add`. -/
def xpAdd (env : ℕ → Bool → AddEnv) (i : ℕ) (qconf : StartConf) : XpAdd where
  qconf := qconf.toQueueConf
  buflen := (env i qconf.c2h).buflen
  prep := (env i qconf.c2h).prep
  create := (env i qconf.c2h).create

/-- The body of `xnl_q_add`, from its label on. -/
def addQ (env : ℕ → Bool → AddEnv) (qidx i : ℕ) (s : AddState) (qconf : StartConf) :
    (AddState × StartConf) × Fate :=
  let qconf :=
    if qidx ≠ qdmaQueueIdxInvalid then { qconf with qidx := (qidx + i) % 2 ^ 16 } else qconf
  let c := xpAdd env i qconf
  let (dev, rv) := s.dev.queueAdd c
  let qconf := { qconf with qidx := (s.dev.lib.addOut c).1 }
  if rv < 0 then (({ s with dev := dev, rv := rv }, qconf), .failed)
  else (({ s with dev := dev, rv := rv, added := s.added ++ [(qconf.c2h, qconf.qidx)] }, qconf),
    .passed)

/-- `xnl_q_add` on a device that is there. -/
def xnlQAdd (env : ℕ → Bool → AddEnv) (attrs : InfoAttrs) (x : XpDev) : AddState :=
  match qconfGet attrs with
  | .error (rv, err) => { dev := x, rv := rv, sent := [.text err] }
  | .ok (qconf, isQp) =>
      match attrs xnlAttrNumQ with
      | none =>
          { dev := x, rv := -1
            sent := [.text ("Missing attribute NUM_Q for qidx = " ++ toString qconf.qidx ++ "\n")] }
      | some n =>
          match queueLoop (addQ env qconf.qidx) isQp qconf.c2h n 0 { dev := x } qconf with
          | (s, .passed) =>
              { s with rv := 0, sent := [.buf, .text ("Added " ++ toString n ++ " Queues.\n")] }
          | (s, _) => { s with sent := [.buf] }

/-! ## What is asked of it -/

/-- An index is free for queues of a mode. -/
def Suitable (x : QdmaDev) (st : Bool) (dirs : List Bool) (i : ℕ) : Prop :=
  (if st then x.stModeEn else x.mmModeEn) = true ∧ x.gone = false ∧
    ∀ d ∈ dirs, (x.descq (x.queueId d i)).enabled = false ∧
      x.modeClash { st := st, c2h := d } i = false

instance (x : QdmaDev) (st : Bool) (dirs : List Bool) (i : ℕ) : Decidable (Suitable x st dirs i) :=
  inferInstanceAs (Decidable (_ ∧ _ ∧ ∀ d ∈ dirs, _))

/-- The indices that are free. -/
def suitable (x : QdmaDev) (st : Bool) (dirs : List Bool) : List ℕ :=
  (List.range x.qmax).filter fun i => decide (Suitable x st dirs i)

/-- A queue is there: it is enabled, and its entry has its handle and a live character device. -/
structure QueueStands (x : XpDev) (q : QRef) : Prop where
  enabled : (x.lib.dev.descq (x.lib.dev.refId q)).enabled = true
  inTable : q.2 < x.qmax
  entry : ∃ k, x.Live k ∧ x.qdata (x.place q) = { qhndl := x.lib.dev.refId q, xcdev := some k }

/-- **Queues have been added** on some free indices, as many as there are of the number asked for,
and there is an error if these are less; every call returns. -/
structure AddedAt (x : XpDev) (st : Bool) (dirs : List Bool) (n : ℕ) (r : AddState) (is : List ℕ) :
    Prop where
  nodup : is.Nodup
  free : ∀ i ∈ is, i ∈ suitable x.lib.dev st dirs
  count : is.length = min n (suitable x.lib.dev st dirs).length
  added : r.added = queuesOf dirs is
  stands : ∀ q ∈ r.added, QueueStands r.dev q
  others : ∀ q : QRef, q.2 < x.lib.dev.qmax →
    ((r.dev.lib.dev.descq (x.lib.dev.refId q)).enabled = true ↔
      (x.lib.dev.descq (x.lib.dev.refId q)).enabled = true ∨ q ∈ r.added)
  error : r.rv < 0 ↔ is.length < n
  returns : r.dev.lib.dev.faults = x.lib.dev.faults

/-- **A command with an automatic index works.** -/
def AddsAuto (x : XpDev) (st : Bool) (dirs : List Bool) (n : ℕ) (r : AddState) : Prop :=
  ∃ is, AddedAt x st dirs n r is

/-- **When it does**: nothing is to be added; or no index is free, none is found, and the device is
there if its mode is enabled; or one is found, no step behind the search fails, the other queue of a
pair can be added with it, and it is the only one that is asked for or free. -/
def AutoFits (env : ℕ → Bool → AddEnv) (x : XpDev) (qconf : StartConf) (isQp : Bool) (n : ℕ) :
    Prop :=
  let c := xpAdd env 0 qconf
  let free := (suitable x.lib.dev qconf.st (dirsOf isQp qconf.c2h)).length
  n = 0 ∨ (free = 0 ∧ x.lib.dev.addPlace c.call = none ∧ ¬ x.lib.dev.AddFaults c.call) ∨
    ∃ i, x.lib.dev.addPlace c.call = some (c.qconf, i) ∧ x.AddsWhole c i ∧
      (isQp = true → (x.lib.dev.descq (x.lib.dev.queueId (!qconf.c2h) i)).enabled = false ∧
        x.lib.dev.qcnt (!qconf.c2h) < x.lib.dev.qmax) ∧
      (n = 1 ∨ free = 1)

/-! ## The library -/

/-- A call that enables a queue gives it its mode, and changes neither the modes of the device nor
the count of the other direction. -/
theorem queueAdd_conf {x : QdmaDev} {c : AddCall} {qconf : QueueConf} {i : ℕ}
    (h : x.addPlace c = some (qconf, i)) (hprep : 0 ≤ c.prep) :
    ((x.queueAdd c).1.descq (x.queueId qconf.c2h i)).conf.st = qconf.st ∧
      (x.queueAdd c).1.stModeEn = x.stModeEn ∧ (x.queueAdd c).1.mmModeEn = x.mmModeEn ∧
      (x.queueAdd c).1.qcnt (!qconf.c2h) = x.qcnt (!qconf.c2h) := by
  rw [queueAdd_claims h, if_neg (Int.not_lt.mpr hprep)]
  refine ⟨?_, ?_, ?_, ?_⟩
  · rw [setDescq_self]
    rfl
  · unfold QdmaDev.count
    split_ifs <;> rfl
  · unfold QdmaDev.count
    split_ifs <;> rfl
  · show (x.count qconf.c2h).qcnt (!qconf.c2h) = _
    rw [qcnt_count, if_neg (Bool.not_ne_self _)]

/-- Once they have been prepared, the resources are there. -/
theorem prepQResource_init {s : IdDev} {env : PrepEnv} (h : 0 ≤ (s.prepQResource env).2) :
    (s.prepQResource env).1.initQrange = true := by
  unfold IdDev.prepQResource at h ⊢
  by_cases hinit : s.initQrange = true
  · rw [if_pos hinit]
    exact hinit
  rw [if_neg hinit] at h ⊢
  have hset : (s.deviceSetQrange env).1.initQrange = true ∨ (s.deviceSetQrange env).2 < 0 := by
    unfold IdDev.deviceSetQrange
    split_ifs with hvf hrv
    · exact .inr hrv
    · exact .inl rfl
    · exact .inl rfl
  simp only at h ⊢
  by_cases hneg : (s.deviceSetQrange env).2 < 0
  · rw [if_pos hneg] at h
    exact absurd hneg (Int.not_lt.mpr h)
  rw [if_neg hneg] at h ⊢
  cases hsetup : intrRingSetup (s.deviceSetQrange env).1.conf env.allocOk with
  | error rv =>
      rw [hsetup] at h
      have hrv : rv < 0 := by
        rw [intrRingSetup_error hsetup]
        decide
      exact absurd hrv (Int.not_lt.mpr h)
  | ok p => exact hset.resolve_right hneg

/-- **The library behind a call that adds queue `i`.** -/
structure LibAfter (s : IdDev) (qconf : QueueConf) (i : ℕ) (s' : IdDev) : Prop where
  qmax : s'.dev.qmax = s.dev.qmax
  gone : s'.dev.gone = s.dev.gone
  stModeEn : s'.dev.stModeEn = s.dev.stModeEn
  mmModeEn : s'.dev.mmModeEn = s.dev.mmModeEn
  self : (s'.dev.descq (s.dev.refId (qconf.c2h, i))).enabled = true
  mode : (s'.dev.descq (s.dev.refId (qconf.c2h, i))).conf.st = qconf.st
  other : ∀ id, id ≠ s.dev.refId (qconf.c2h, i) →
    (s'.dev.descq id).enabled = (s.dev.descq id).enabled
  count : s'.dev.qcnt (!qconf.c2h) = s.dev.qcnt (!qconf.c2h)
  prepared : s'.initQrange = true

theorem idQueueAdd_after {s : IdDev} {c : XpAdd} {i : ℕ}
    (hp : s.dev.addPlace c.call = some (c.qconf, i)) (hprep : PrepOk s c.prep) :
    LibAfter s c.qconf i (s.queueAdd c.call c.prep).1 := by
  have hpos := (prepQResource_iff s c.prep).mpr hprep
  obtain ⟨b, hplace, hdev, -⟩ := idQueueAdd_place c.prep hp
  obtain ⟨-, -, -, hqmax, hgone, hself, -, hother⟩ := queueAdd_place hplace hpos
  obtain ⟨hst, hstEn, hmmEn, hcnt⟩ := queueAdd_conf hplace hpos
  rw [← hdev] at hqmax hgone hstEn hmmEn hself hst hother hcnt
  refine ⟨hqmax, hgone, hstEn, hmmEn, hself, hst, hother, hcnt, ?_⟩
  unfold IdDev.queueAdd
  rw [hp]
  exact prepQResource_init hpos

/-! ## The table -/

/-- **The queues of `A` have been added to `x`**, and no others. -/
structure HasAdded (x : XpDev) (A : List QRef) (y : XpDev) : Prop where
  qmax : y.lib.dev.qmax = x.lib.dev.qmax
  gone : y.lib.dev.gone = x.lib.dev.gone
  faults : y.lib.dev.faults = x.lib.dev.faults
  table : y.qmax = x.qmax
  inLib : ∀ q ∈ A, q.2 < x.lib.dev.qmax
  stands : ∀ q ∈ A, QueueStands y q
  enabled : ∀ q : QRef, q.2 < x.lib.dev.qmax →
    ((y.lib.dev.descq (x.lib.dev.refId q)).enabled = true ↔
      (x.lib.dev.descq (x.lib.dev.refId q)).enabled = true ∨ q ∈ A)

theorem HasAdded.refl (x : XpDev) : HasAdded x [] x :=
  ⟨rfl, rfl, rfl, rfl, fun _ hq => absurd hq List.not_mem_nil,
    fun _ hq => absurd hq List.not_mem_nil, fun _ _ => (or_iff_left List.not_mem_nil).symm⟩

/-- A device that is there does not fault. -/
theorem HasAdded.not_faults {x y : XpDev} {A : List QRef} (h : HasAdded x A y)
    (hg : x.lib.dev.gone = false) (c : AddCall) : ¬ y.lib.dev.AddFaults c :=
  fun hf => Bool.false_ne_true (hg.symm.trans (h.gone.symm.trans hf.1))

/-- **A call that finds no queue** fails and leaves everything. -/
theorem HasAdded.fail {x y : XpDev} {A : List QRef} (h : HasAdded x A y) {c : XpAdd}
    (hp : y.lib.dev.addPlace c.call = none) (hret : ¬ y.lib.dev.AddFaults c.call) :
    (y.queueAdd c).2 < 0 ∧ HasAdded x A (y.queueAdd c).1 ∧ (y.lib.addOut c).1 = c.qconf.qidx := by
  have hout : (y.lib.addOut c).1 = c.qconf.qidx := by
    unfold IdDev.addOut
    rw [hp]
  have hcases := xpQueueAdd_cases y c
  have hfaults := (idQueueAdd_faults y.lib c.call c.prep).mpr hret
  generalize y.queueAdd c = r at hcases ⊢
  cases hcases with
  | none _ hrv hsame =>
      generalize (y.lib.queueAdd c.call c.prep).1 = lib at hsame hfaults ⊢
      refine ⟨hrv, ⟨hsame.qmax.trans h.qmax, hsame.gone.trans h.gone, hfaults.trans h.faults,
        h.table, h.inLib, fun q hq => ?_, fun q hq => ?_⟩, hout⟩
      · obtain ⟨hen, hlt, k, hlive, hk⟩ := h.stands q hq
        have hid : lib.dev.refId q = y.lib.dev.refId q := refId_of_qmax hsame.qmax q
        refine ⟨?_, hlt, k, hlive, ?_⟩
        · show (lib.dev.descq (lib.dev.refId q)).enabled = true
          rw [hid, hsame.enabled]
          exact hen
        · show y.qdata (y.place q) = { qhndl := lib.dev.refId q, xcdev := some k }
          rw [hid]
          exact hk
      · rw [← h.enabled q hq]
        exact iff_of_eq (congrArg (· = true) (hsame.enabled _))
  | unprepared i hi _ _ _ _ => exact nomatch hp.symm.trans hi
  | outside i hadded _ _ => exact nomatch hp.symm.trans hadded.place
  | joined i k hadded _ _ => exact nomatch hp.symm.trans hadded.place
  | own i d hadded _ _ _ _ => exact nomatch hp.symm.trans hadded.place
  | failed i hadded _ _ _ _ _ _ => exact nomatch hp.symm.trans hadded.place

/-- **A call in which no step fails** adds the queue, and the character devices that were there
stay. -/
theorem queueAdd_whole {y : XpDev} {c : XpAdd} {i : ℕ}
    (hp : y.lib.dev.addPlace c.call = some (c.qconf, i)) (hwhole : y.AddsWhole c i) :
    (y.queueAdd c).2 = 0 ∧ (y.lib.addOut c).1 = i ∧
      (y.queueAdd c).1.lib = (y.lib.queueAdd c.call c.prep).1 ∧
      (y.queueAdd c).1.qmax = y.qmax ∧ (∀ j, y.Live j → (y.queueAdd c).1.Live j) ∧
      ∃ k, (y.queueAdd c).1.Live k ∧
        (y.queueAdd c).1.qdata = Function.update y.qdata (y.place (c.qconf.c2h, i))
          { qhndl := y.lib.dev.refId (c.qconf.c2h, i), xcdev := some k } := by
  have hcases := xpQueueAdd_cases y c
  generalize y.queueAdd c = r at hcases ⊢
  cases hcases with
  | none hi _ _ => exact nomatch hi.symm.trans hp
  | unprepared _ _ hno _ _ _ => exact absurd hwhole.1 hno
  | outside j h hge _ =>
      obtain rfl := h.unique hp
      exact absurd hwhole.2.1 (Nat.not_lt.mpr hge)
  | joined j k h _ hk =>
      obtain rfl := h.unique hp
      have hlive := hwhole.2.2
      rw [hk] at hlive
      exact ⟨rfl, congrArg Prod.fst h.out, rfl, rfl, fun _ hj => hj, k, hlive, rfl⟩
  | own j d h _ _ _ _ =>
      obtain rfl := h.unique hp
      refine ⟨rfl, congrArg Prod.fst h.out, rfl, rfl, fun _ hj => hj.newCdev rfl rfl, y.next, ?_,
        rfl⟩
      exact ⟨Nat.lt_succ_self _, Function.update_self _ _ _⟩
  | failed j h _ hk hno _ _ _ =>
      obtain rfl := h.unique hp
      have hmake := hwhole.2.2
      rw [hk] at hmake
      exact absurd hmake hno

theorem HasAdded.add {x y : XpDev} {A : List QRef} (h : HasAdded x A y) {c : XpAdd} {i : ℕ}
    (hp : y.lib.dev.addPlace c.call = some (c.qconf, i)) (hwhole : y.AddsWhole c i) :
    HasAdded x (A ++ [(c.qconf.c2h, i)]) (y.queueAdd c).1 := by
  obtain ⟨-, -, hlib, htable, hkeep, k, hlive, hqdata⟩ := queueAdd_whole hp hwhole
  have hafter := idQueueAdd_after hp hwhole.1
  have hgone : ¬ y.lib.dev.AddFaults c.call := fun hf =>
    Bool.false_ne_true ((addPlace_some hp).1.2.2.2.1.symm.trans hf.1)
  have hfaults := (idQueueAdd_faults y.lib c.call c.prep).mpr hgone
  rw [← hlib] at hafter hfaults
  have hi : i < y.lib.dev.qmax :=
    (findQueue_ok (addPlace_some hp).2 (addPlace_some hp).1.2.2.2.2.1).1
  have hoff : (y.lib.dev.descq (y.lib.dev.refId (c.qconf.c2h, i))).enabled = false :=
    (findQueue_ok (addPlace_some hp).2 (addPlace_some hp).1.2.2.2.2.1).2.2
  have hid : ∀ q, (y.queueAdd c).1.lib.dev.refId q = y.lib.dev.refId q :=
    fun q => refId_of_qmax hafter.qmax q
  have hplace : ∀ q, (y.queueAdd c).1.place q = y.place q := fun q => place_of_qmax htable q
  have hx : ∀ q, y.lib.dev.refId q = x.lib.dev.refId q := fun q => refId_of_qmax h.qmax q
  refine ⟨hafter.qmax.trans h.qmax, hafter.gone.trans h.gone, hfaults.trans h.faults,
    htable.trans h.table, ?_, fun q hq => ?_, fun q hq => ?_⟩
  · exact List.forall_mem_append.mpr ⟨h.inLib, List.forall_mem_singleton.mpr (h.qmax ▸ hi)⟩
  · rcases List.mem_append.mp hq with hmem | hmem
    · -- another queue, which has been enabled before
      obtain ⟨hen, hlt, j, hlivej, hj⟩ := h.stands q hmem
      have hne : q ≠ (c.qconf.c2h, i) := by
        rintro rfl
        rw [hoff] at hen
        exact Bool.false_ne_true hen
      have hlib : q.2 < y.lib.dev.qmax := h.qmax.symm ▸ h.inLib q hmem
      refine ⟨?_, htable.symm ▸ hlt, j, hkeep j hlivej, ?_⟩
      · rw [hid, hafter.other _ (fun heq => hne (refId_inj hlib hi heq))]
        exact hen
      · rw [hid, hplace, hqdata,
          Function.update_of_ne (fun heq => hne (place_inj hlt hwhole.2.1 heq))]
        exact hj
    · rw [List.mem_singleton.mp hmem]
      refine ⟨?_, htable.symm ▸ hwhole.2.1, k, hlive, ?_⟩
      · rw [hid]
        exact hafter.self
      · rw [hid, hplace, hqdata, Function.update_self]
  · rw [List.mem_append, List.mem_singleton, ← or_assoc, ← h.enabled q hq, ← hx q]
    by_cases heq : q = (c.qconf.c2h, i)
    · rw [heq]
      exact iff_of_true hafter.self (.inr rfl)
    · have hne : y.lib.dev.refId q ≠ y.lib.dev.refId (c.qconf.c2h, i) :=
        fun hr => heq (refId_inj (h.qmax.symm ▸ hq) hi hr)
      rw [hafter.other _ hne]
      exact (or_iff_left heq).symm

theorem xpQueueAdd_qmax (y : XpDev) (c : XpAdd) : (y.queueAdd c).1.qmax = y.qmax := by
  have hcases := xpQueueAdd_cases y c
  generalize y.queueAdd c = r at hcases
  cases hcases with
  | failed _ _ _ _ _ _ _ hqmax => exact hqmax
  | _ => rfl

/-- **A call in which a step fails**: it leaves a queue enabled that has not been added; or the queue
has no place in the table; or its entry gets a pointer to something that is no character device. -/
inductive HalfAdded (y : XpDev) (c : XpAdd) (i : ℕ) : XpDev × ℤ → Prop where
  | failed {y' : XpDev} {rv : ℤ} (hrv : rv < 0)
      (hon : (y'.lib.dev.descq (y.lib.dev.refId (c.qconf.c2h, i))).enabled = true) :
      HalfAdded y c i (y', rv)
  | outside {y' : XpDev} {rv : ℤ} (hrv : 0 ≤ rv) (hge : y.qmax ≤ i)
      (hout : (y.lib.addOut c).1 = i) : HalfAdded y c i (y', rv)
  | astray {y' : XpDev} (k : ℕ) (hlt : i < y.qmax) (hout : (y.lib.addOut c).1 = i)
      (hqmax : y'.lib.dev.qmax = y.lib.dev.qmax) (htable : y'.qmax = y.qmax)
      (hon : (y'.lib.dev.descq (y.lib.dev.refId (c.qconf.c2h, i))).enabled = true)
      (hentry : (y'.qdata (y.place (c.qconf.c2h, i))).xcdev = some k) (hdead : ¬ y'.Live k) :
      HalfAdded y c i (y', 0)

theorem queueAdd_half {y : XpDev} {c : XpAdd} {i : ℕ}
    (hp : y.lib.dev.addPlace c.call = some (c.qconf, i)) (hno : ¬ y.AddsWhole c i) :
    HalfAdded y c i (y.queueAdd c) := by
  have hcases := xpQueueAdd_cases y c
  generalize y.queueAdd c = r at hcases ⊢
  cases hcases with
  | none hi _ _ => exact nomatch hi.symm.trans hp
  | unprepared j hj _ hrv _ hon =>
      obtain rfl : i = j := (Prod.mk.inj (Option.some.inj (hp.symm.trans hj))).2
      exact .failed hrv hon
  | outside j h hge hrv =>
      obtain rfl := h.unique hp
      exact .outside hrv hge (congrArg Prod.fst h.out)
  | joined j k h hlt hk =>
      obtain rfl := h.unique hp
      refine .astray k hlt (congrArg Prod.fst h.out) (idQueueAdd_after hp h.prep).qmax rfl h.on ?_
        (fun hlive => hno ⟨h.prep, hlt, ?_⟩)
      · show (Function.update y.qdata _ _ _).xcdev = some k
        rw [Function.update_self]
      · rw [hk]
        exact hlive
  | own j d h hlt hk hcreates _ =>
      obtain rfl := h.unique hp
      refine absurd ⟨h.prep, hlt, ?_⟩ hno
      rw [hk]
      exact hcreates
  | failed j h _ _ _ hneg hlib _ =>
      obtain rfl := h.unique hp
      refine .failed hneg ?_
      rw [hlib]
      exact h.on

/-- **A queue that is enabled is not found** by its index. -/
theorem addPlace_taken {x : QdmaDev} {c : AddCall} {qconf : QueueConf} (hc : c.qconf = some qconf)
    (hidx : qconf.qidx ≠ qdmaQueueIdxInvalid)
    (hen : (x.descq (x.queueId qconf.c2h qconf.qidx)).enabled = true) : x.addPlace c = none := by
  cases hp : x.addPlace c with
  | none => rfl
  | some p =>
      obtain ⟨qconf', i⟩ := p
      obtain ⟨hcounts, hf⟩ := addPlace_some hp
      obtain rfl : qconf' = qconf := Option.some.inj (hcounts.1.symm.trans hc)
      unfold QdmaDev.findQueue at hf
      rw [if_neg hidx] at hf
      by_cases hclash : x.modeClash qconf' qconf'.qidx = true
      · rw [if_pos hclash] at hf
        exact nomatch hf
      · rw [if_neg hclash, if_pos hen] at hf
        exact nomatch hf

/-- An index of the device is not the automatic one. -/
theorem ne_invalid {qmax i : ℕ} (hq : qmax < 2 ^ 16) (hi : i < qmax) : i ≠ qdmaQueueIdxInvalid := by
  unfold qdmaQueueIdxInvalid
  omega

/-- The index that is asked for is the one that is found. -/
theorem findQueue_asked {x : QdmaDev} {qconf : QueueConf} {i : ℕ}
    (hidx : qconf.qidx ≠ qdmaQueueIdxInvalid) (h : x.findQueue qconf = .ok i) : i = qconf.qidx := by
  unfold QdmaDev.findQueue at h
  rw [if_neg hidx] at h
  split_ifs at h
  exact (Except.ok.inj h).symm

/-! ## The other queue of a pair -/

section Pair

variable {y : XpDev} {c d : XpAdd} {i : ℕ}

/-- **The other queue is added** with the index of the first if it is free and its count allows it:
it has the mode of the first, and there is a character device. -/
theorem addPlace_other (hp : y.lib.dev.addPlace c.call = some (c.qconf, i))
    (hwhole : y.AddsWhole c i) (hq : y.lib.dev.qmax < 2 ^ 16)
    (hother : d.qconf.st = c.qconf.st ∧ d.qconf.c2h = !c.qconf.c2h ∧ d.qconf.qidx = i)
    (hoff : (y.lib.dev.descq (y.lib.dev.queueId (!c.qconf.c2h) i)).enabled = false)
    (hcnt : y.lib.dev.qcnt (!c.qconf.c2h) < y.lib.dev.qmax) :
    (y.queueAdd c).1.lib.dev.addPlace d.call = some (d.qconf, i) ∧
      (y.queueAdd c).1.AddsWhole d i := by
  obtain ⟨hst, hdir, hidx⟩ := hother
  have hcounts := (addPlace_some hp).1
  have hi := (findQueue_ok (addPlace_some hp).2 hcounts.2.2.2.2.1).1
  have hafter := idQueueAdd_after hp hwhole.1
  rw [← (queueAdd_whole hp hwhole).2.2.1] at hafter
  have hstands := ((HasAdded.refl y).add hp hwhole).stands _ (List.mem_singleton_self _)
  generalize (y.queueAdd c).1 = z at hafter hstands ⊢
  have hid : ∀ b, z.lib.dev.queueId b i = y.lib.dev.refId (b, i) :=
    fun b => refId_of_qmax hafter.qmax (b, i)
  have hclash : z.lib.dev.modeClash d.qconf i = false := by
    unfold QdmaDev.modeClash
    simp only
    rw [hdir, Bool.not_not, hid, hst, hafter.mode, bne_self_eq_false, Bool.and_false]
  have hfree : (z.lib.dev.descq (z.lib.dev.queueId d.qconf.c2h i)).enabled = false := by
    have hne : y.lib.dev.refId (!c.qconf.c2h, i) ≠ y.lib.dev.refId (c.qconf.c2h, i) := fun heq =>
      Bool.not_ne_self _ (Prod.mk.inj (refId_inj (q := (!c.qconf.c2h, i)) hi hi heq)).1
    rw [hdir, hid, hafter.other _ hne]
    exact hoff
  have hf : z.lib.dev.findQueue d.qconf = .ok i := by
    unfold QdmaDev.findQueue
    rw [if_neg (hidx.symm ▸ ne_invalid hq hi), hidx, hclash, hfree]
    rfl
  have hlt : i < z.lib.dev.qmax := hafter.qmax.symm ▸ hi
  refine ⟨addPlace_of_ok ⟨rfl, rfl, ?_, hafter.gone.trans hcounts.2.2.2.1, ?_, ?_⟩ hf, ?_⟩
  · rw [hst, hafter.stModeEn, hafter.mmModeEn]
    exact hcounts.2.2.1
  · rw [hidx]
    exact fun h => absurd h.2 (Nat.not_le.mpr hlt)
  · rw [hdir, hafter.count, hafter.qmax]
    exact hcnt
  · obtain ⟨-, htable, k, hlive, hk⟩ := hstands
    refine ⟨.inl hafter.prepared, htable, ?_⟩
    rw [hdir, Bool.not_not, hk]
    exact hlive

/-- Otherwise it is not. -/
theorem addPlace_other_none (hp : y.lib.dev.addPlace c.call = some (c.qconf, i))
    (hwhole : y.AddsWhole c i) (hq : y.lib.dev.qmax < 2 ^ 16)
    (hdir : d.qconf.c2h = !c.qconf.c2h) (hidx : d.qconf.qidx = i)
    (hno : ¬ ((y.lib.dev.descq (y.lib.dev.queueId (!c.qconf.c2h) i)).enabled = false ∧
      y.lib.dev.qcnt (!c.qconf.c2h) < y.lib.dev.qmax)) :
    (y.queueAdd c).1.lib.dev.addPlace d.call = none := by
  have hi := (findQueue_ok (addPlace_some hp).2 (addPlace_some hp).1.2.2.2.2.1).1
  have hafter := idQueueAdd_after hp hwhole.1
  rw [← (queueAdd_whole hp hwhole).2.2.1] at hafter
  generalize (y.queueAdd c).1 = z at hafter ⊢
  have hid : z.lib.dev.queueId (!c.qconf.c2h) i = y.lib.dev.refId (!c.qconf.c2h, i) :=
    refId_of_qmax hafter.qmax (!c.qconf.c2h, i)
  have hne : y.lib.dev.refId (!c.qconf.c2h, i) ≠ y.lib.dev.refId (c.qconf.c2h, i) := fun heq =>
    Bool.not_ne_self _ (Prod.mk.inj (refId_inj (q := (!c.qconf.c2h, i)) hi hi heq)).1
  by_cases hon : (y.lib.dev.descq (y.lib.dev.queueId (!c.qconf.c2h) i)).enabled = true
  · refine addPlace_taken (c := d.call) rfl (hidx.symm ▸ ne_invalid hq hi) ?_
    rw [hdir, hidx, hid, hafter.other _ hne]
    exact hon
  · -- all the queues of its direction are counted
    cases hz : z.lib.dev.addPlace d.call with
    | none => rfl
    | some p =>
        obtain ⟨qconf', j⟩ := p
        have hcounts := (addPlace_some hz).1
        obtain rfl : qconf' = d.qconf := (Option.some.inj hcounts.1).symm
        have hcnt := hcounts.2.2.2.2.2
        rw [hdir, hafter.count, hafter.qmax] at hcnt
        exact absurd ⟨Bool.eq_false_iff.mpr hon, hcnt⟩ hno

end Pair

/-! ## The loop -/

section Loop

variable {env : ℕ → Bool → AddEnv} {i j : ℕ} {s : AddState} {qconf : StartConf}

/-- A call with the index that is there already. -/
theorem addQ_auto (env : ℕ → Bool → AddEnv) (i : ℕ) (s : AddState) (qconf : StartConf) :
    addQ env qdmaQueueIdxInvalid i s qconf =
      if (s.dev.queueAdd (xpAdd env i qconf)).2 < 0 then
        (({ s with
            dev := (s.dev.queueAdd (xpAdd env i qconf)).1
            rv := (s.dev.queueAdd (xpAdd env i qconf)).2 },
          { qconf with qidx := (s.dev.lib.addOut (xpAdd env i qconf)).1 }), .failed)
      else
        (({ s with
            dev := (s.dev.queueAdd (xpAdd env i qconf)).1
            rv := (s.dev.queueAdd (xpAdd env i qconf)).2
            added := s.added ++ [(qconf.c2h, (s.dev.lib.addOut (xpAdd env i qconf)).1)] },
          { qconf with qidx := (s.dev.lib.addOut (xpAdd env i qconf)).1 }), .passed) := rfl

theorem addQ_fails (s : AddState) (hneg : (s.dev.queueAdd (xpAdd env i qconf)).2 < 0) :
    addQ env qdmaQueueIdxInvalid i s qconf =
      (({ s with
          dev := (s.dev.queueAdd (xpAdd env i qconf)).1
          rv := (s.dev.queueAdd (xpAdd env i qconf)).2 },
        { qconf with qidx := (s.dev.lib.addOut (xpAdd env i qconf)).1 }), .failed) :=
  (addQ_auto env i s qconf).trans (if_pos hneg)

theorem addQ_adds (s : AddState) (hp : s.dev.lib.dev.addPlace (xpAdd env i qconf).call =
      some ((xpAdd env i qconf).qconf, j)) (hwhole : s.dev.AddsWhole (xpAdd env i qconf) j) :
    addQ env qdmaQueueIdxInvalid i s qconf =
      (({ s with
          dev := (s.dev.queueAdd (xpAdd env i qconf)).1
          rv := 0
          added := s.added ++ [(qconf.c2h, j)] }, { qconf with qidx := j }), .passed) := by
  obtain ⟨hrv, hout, -⟩ := queueAdd_whole hp hwhole
  rw [addQ_auto, hrv, hout]
  rfl

/-- A pass of the loop, if the command is not for pairs. -/
theorem queueLoop_single {S : Type} {body : ℕ → S → StartConf → (S × StartConf) × Fate} {i n : ℕ}
    {s s1 : S} {qconf qconf1 : StartConf} {c2h : Bool}
    (h : body i s { qconf with c2h := c2h } = ((s1, qconf1), .passed)) :
    queueLoop body false c2h (n + 1) i s qconf = queueLoop body false c2h n (i + 1) s1 qconf1 := by
  rw [queueLoop, h]
  rfl

/-- The loop ends behind a body that fails. -/
theorem queueLoop_failed {S : Type} {body : ℕ → S → StartConf → (S × StartConf) × Fate} {i n : ℕ}
    {s s1 : S} {qconf qconf1 : StartConf} {isQp c2h : Bool}
    (h : body i s { qconf with c2h := c2h } = ((s1, qconf1), .failed)) :
    queueLoop body isQp c2h (n + 1) i s qconf = (s1, .failed) := by
  rw [queueLoop, h]

/-- For a pair the body comes twice. -/
theorem queueLoop_pair {S : Type} {body : ℕ → S → StartConf → (S × StartConf) × Fate} {i n : ℕ}
    {s s1 s2 : S} {qconf qconf1 qconf2 : StartConf} {c2h : Bool} {v : Fate}
    (h : body i s { qconf with c2h := c2h } = ((s1, qconf1), .passed)) (hc2h : qconf1.c2h = c2h)
    (hsecond : body i s1 { qconf1 with c2h := !c2h } = ((s2, qconf2), v)) :
    queueLoop body true c2h (n + 1) i s qconf =
      if v = .passed then queueLoop body true c2h n (i + 1) s2 qconf2 else (s2, v) := by
  subst hc2h
  rw [queueLoop, h]
  simp only [Bool.true_and, beq_self_eq_true, if_true]
  rw [hsecond]
  cases v <;> rfl

/-- A queue counts as added, and the table has the length it had. -/
def PassedOver (x : XpDev) (q : QRef) (s : AddState) : Prop := q ∈ s.added ∧ s.dev.qmax = x.qmax

theorem addQ_passedOver (env : ℕ → Bool → AddEnv) (x : XpDev) (q : QRef) (i : ℕ) (s : AddState)
    (qconf : StartConf) (h : PassedOver x q s) :
    PassedOver x q (addQ env qdmaQueueIdxInvalid i s qconf).1.1 := by
  rw [addQ_auto]
  split_ifs
  · exact ⟨h.1, (xpQueueAdd_qmax s.dev _).trans h.2⟩
  · exact ⟨List.mem_append_left _ h.1, (xpQueueAdd_qmax s.dev _).trans h.2⟩

/-- A queue counts as added, but what its entry points to is not there. -/
structure StrayEntry (x : XpDev) (q : QRef) (k : ℕ) (s : AddState) : Prop where
  added : q ∈ s.added
  qmax : s.dev.lib.dev.qmax = x.lib.dev.qmax
  table : s.dev.qmax = x.qmax
  on : (s.dev.lib.dev.descq (x.lib.dev.refId q)).enabled = true
  entry : (s.dev.qdata (x.place q)).xcdev = some k
  dead : ¬ s.dev.Live k

/-- **It stays so**: a call for its index finds the queue taken, and one for the other queue of the
pair joins what the entry points to. -/
theorem StrayEntry.add {x : XpDev} {q : QRef} {k : ℕ} {s : AddState} (h : StrayEntry x q k s)
    (hq : x.lib.dev.qmax < 2 ^ 16) (hlib : q.2 < x.lib.dev.qmax) (hlt : q.2 < x.qmax) {c : XpAdd}
    (hidx : c.qconf.qidx = q.2) (rv : ℤ) (added : List QRef) (hadded : q ∈ added) :
    StrayEntry x q k { s with dev := (s.dev.queueAdd c).1, rv := rv, added := added } ∧
      (s.dev.lib.addOut c).1 = q.2 := by
  have hne : c.qconf.qidx ≠ qdmaQueueIdxInvalid := hidx.symm ▸ ne_invalid hq hlib
  have hfound : ∀ {i}, s.dev.lib.dev.addPlace c.call = some (c.qconf, i) → i = q.2 := fun hp =>
    (findQueue_asked hne (addPlace_some hp).2).trans hidx
  have hout : (s.dev.lib.addOut c).1 = q.2 := by
    unfold IdDev.addOut
    cases hp : s.dev.lib.dev.addPlace c.call with
    | none => exact hidx
    | some p =>
        obtain ⟨qconf, i⟩ := p
        obtain rfl : qconf = c.qconf := (Option.some.inj (addPlace_some hp).1.1).symm
        exact hfound hp
  -- the other queue of the pair finds the entry of this one
  have hpair : ∀ {i}, s.dev.lib.dev.addPlace c.call = some (c.qconf, i) →
      c.qconf.c2h = !q.1 ∧ s.dev.place (!c.qconf.c2h, i) = x.place q := by
    intro i hp
    have hdir : c.qconf.c2h = !q.1 := by
      by_contra hsame
      have hown : c.qconf.c2h = q.1 := by
        revert hsame
        cases c.qconf.c2h <;> cases q.1 <;> decide
      have htaken := addPlace_taken (x := s.dev.lib.dev) (c := c.call) rfl hne (by
        rw [hown, hidx]
        exact (congrArg (fun id => (s.dev.lib.dev.descq id).enabled)
          (refId_of_qmax h.qmax q)).trans h.on)
      exact nomatch htaken.symm.trans hp
    refine ⟨hdir, ?_⟩
    rw [hdir, Bool.not_not, hfound hp]
    exact place_of_qmax h.table q
  have hen := idQueueAdd_stays s.dev.lib c.call c.prep h.on
  have hqmax : (s.dev.queueAdd c).1.lib.dev.qmax = s.dev.lib.dev.qmax := by
    rw [xpQueueAdd_lib]
    exact idQueueAdd_qmax s.dev.lib c.call c.prep
  rw [← xpQueueAdd_lib] at hen
  have hkept : ((s.dev.queueAdd c).1.qdata (x.place q)).xcdev = some k ∧
      ¬ (s.dev.queueAdd c).1.Live k := by
    have hcases := xpQueueAdd_cases s.dev c
    generalize s.dev.queueAdd c = r at hcases
    cases hcases with
    | none _ _ _ => exact ⟨h.entry, h.dead⟩
    | unprepared i _ _ _ _ _ => exact ⟨h.entry, h.dead⟩
    | outside i _ _ _ => exact ⟨h.entry, h.dead⟩
    | joined i k' hadd hi hk =>
        obtain ⟨hdir, hat⟩ := hpair hadd.place
        have hother : x.place q ≠ s.dev.place (c.qconf.c2h, i) := by
          rw [place_of_qmax h.table, hdir]
          intro heq
          have hi' : i < x.qmax := hfound hadd.place ▸ hlt
          exact Bool.not_ne_self _ (congrArg Prod.fst (place_inj hlt hi' heq)).symm
        refine ⟨?_, h.dead⟩
        show (Function.update s.dev.qdata _ _ (x.place q)).xcdev = some k
        rw [Function.update_of_ne hother]
        exact h.entry
    | own i d hadd hi hk _ _ =>
        rw [(hpair hadd.place).2, h.entry] at hk
        exact nomatch hk
    | failed i hadd hi hk _ _ _ _ =>
        rw [(hpair hadd.place).2, h.entry] at hk
        exact nomatch hk
  exact ⟨⟨hadded, hqmax.trans h.qmax, (xpQueueAdd_qmax s.dev c).trans h.table, hen, hkept.1,
    hkept.2⟩, hout⟩

theorem StrayEntry.addQ {x : XpDev} {q : QRef} {k : ℕ} (hq : x.lib.dev.qmax < 2 ^ 16)
    (hlib : q.2 < x.lib.dev.qmax) (hlt : q.2 < x.qmax) (env : ℕ → Bool → AddEnv) (i : ℕ)
    (s : AddState) (qconf : StartConf) (h : StrayEntry x q k s ∧ qconf.qidx = q.2) :
    let r := Qdma.addQ env qdmaQueueIdxInvalid i s qconf
    StrayEntry x q k r.1.1 ∧ r.1.2.qidx = q.2 := by
  simp only
  have hadd := h.1.add (c := xpAdd env i qconf) hq hlib hlt h.2
  rw [addQ_auto]
  split_ifs
  · exact hadd _ _ h.1.added
  · exact hadd _ _ (List.mem_append_left _ h.1.added)

/-- **Behind the first pass**: the index is taken now, and the next pass fails. -/
theorem queueLoop_taken (env : ℕ → Bool → AddEnv) (isQp : Bool) (m i : ℕ) {qconf : StartConf}
    {x : XpDev} {A : List QRef} {c2h : Bool} (h : HasAdded x A s.dev) (hadded : s.added = A)
    (hg : x.lib.dev.gone = false) (hq : x.lib.dev.qmax < 2 ^ 16) (hmem : (c2h, qconf.qidx) ∈ A) :
    let r := queueLoop (addQ env qdmaQueueIdxInvalid) isQp c2h m i s qconf
    HasAdded x A r.1.dev ∧ r.1.added = A ∧ (r.2 = .passed ↔ m = 0) ∧ (m ≠ 0 → r.1.rv < 0) := by
  cases m with
  | zero => exact ⟨h, hadded, iff_of_true rfl rfl, fun hne => absurd rfl hne⟩
  | succ m =>
      have hi : qconf.qidx < x.lib.dev.qmax := h.inLib _ hmem
      have hp : s.dev.lib.dev.addPlace (xpAdd env i { qconf with c2h := c2h }).call = none := by
        refine addPlace_taken rfl (ne_invalid hq hi) ?_
        exact (h.stands _ hmem).enabled
      obtain ⟨hneg, hafter, -⟩ := h.fail hp (h.not_faults hg _)
      simp only
      rw [queueLoop_failed (addQ_fails s hneg)]
      exact ⟨hafter, hadded, iff_of_false (fun h => nomatch h) (Nat.succ_ne_zero m), fun _ => hneg⟩

end Loop

/-! ## The count -/

theorem length_queuesOf (dirs : List Bool) (is : List ℕ) :
    (queuesOf dirs is).length = is.length * dirs.length := by
  unfold queuesOf
  induction is with
  | nil => rw [List.flatMap_nil, List.length_nil, List.length_nil, Nat.zero_mul]
  | cons i is ih =>
      rw [List.flatMap_cons, List.length_append, ih, List.length_map, List.length_cons,
        Nat.succ_mul, Nat.add_comm]

theorem dirsOf_pos (isQp c2h : Bool) : 0 < (dirsOf isQp c2h).length := by
  cases isQp <;> exact Nat.succ_pos _

/-- What has been added says whether the command has worked. -/
theorem addsAuto_iff {x : XpDev} {st : Bool} {dirs : List Bool} {n : ℕ} {r : AddState}
    (is : List ℕ) (h : HasAdded x r.added r.dev) (hadded : r.added = queuesOf dirs is)
    (hdirs : 0 < dirs.length) (hnodup : is.Nodup) (hfree : ∀ i ∈ is, i ∈ suitable x.lib.dev st dirs)
    (hrv : r.rv < 0 ↔ is.length < n) :
    AddsAuto x st dirs n r ↔ is.length = min n (suitable x.lib.dev st dirs).length := by
  refine ⟨?_, fun hcount =>
    ⟨is, hnodup, hfree, hcount, hadded, h.stands, h.enabled, hrv, h.faults⟩⟩
  rintro ⟨is', hr⟩
  have hlen : is.length * dirs.length = is'.length * dirs.length := by
    rw [← length_queuesOf, ← length_queuesOf, ← hadded, ← hr.added]
  rw [Nat.eq_of_mul_eq_mul_right hdirs hlen]
  exact hr.count

/-! ## The command -/

/-- The index found is free for a pair if the other queue is. -/
theorem mem_suitable {x : QdmaDev} {c : XpAdd} {i : ℕ} {isQp : Bool}
    (hp : x.addPlace c.call = some (c.qconf, i))
    (hoff : isQp = true → (x.descq (x.queueId (!c.qconf.c2h) i)).enabled = false) :
    i ∈ suitable x c.qconf.st (dirsOf isQp c.qconf.c2h) := by
  obtain ⟨hcounts, hf⟩ := addPlace_some hp
  obtain ⟨hi, hclash, hen⟩ := findQueue_ok hf hcounts.2.2.2.2.1
  refine List.mem_filter.mpr ⟨List.mem_range.mpr hi, decide_eq_true ?_⟩
  refine ⟨hcounts.2.2.1, hcounts.2.2.2.1, ?_⟩
  cases isQp with
  | false => exact List.forall_mem_singleton.mpr ⟨hen, hclash⟩
  | true =>
      refine List.forall_mem_cons.mpr ⟨⟨hen, hclash⟩, List.forall_mem_singleton.mpr ⟨hoff rfl, ?_⟩⟩
      unfold QdmaDev.modeClash
      simp only
      rw [Bool.not_not, hen, Bool.false_and]

section Command

variable {env : ℕ → Bool → AddEnv} {attrs : InfoAttrs} {x : XpDev} {qconf : StartConf}
  {isQp : Bool} {n i : ℕ}

/-- The command is its loop. -/
theorem xnlQAdd_loop (env : ℕ → Bool → AddEnv) (x : XpDev)
    (hget : qconfGet attrs = .ok (qconf, isQp)) (hauto : qconf.qidx = qdmaQueueIdxInvalid)
    (hn : attrs xnlAttrNumQ = some n) {s : AddState} {v : Fate}
    (hloop : queueLoop (addQ env qdmaQueueIdxInvalid) isQp qconf.c2h n 0 { dev := x } qconf =
      (s, v)) :
    (xnlQAdd env attrs x).dev = s.dev ∧ (xnlQAdd env attrs x).added = s.added ∧
      (xnlQAdd env attrs x).rv = if v = .passed then 0 else s.rv := by
  unfold xnlQAdd
  rw [hget, hn]
  simp only
  rw [hauto, hloop]
  cases v <;> exact ⟨rfl, rfl, rfl⟩

/-- **With the first index added**, the command has worked if no other index is asked for or
free. -/
theorem addsAuto_first (env : ℕ → Bool → AddEnv) (i : ℕ)
    (hget : qconfGet attrs = .ok (qconf, isQp)) (hauto : qconf.qidx = qdmaQueueIdxInvalid)
    (hn : attrs xnlAttrNumQ = some (n + 1)) (hq : x.lib.dev.qmax < 2 ^ 16)
    (hg : x.lib.dev.gone = false) {s : AddState}
    {qconf' : StartConf} (hadded : s.added = queuesOf (dirsOf isQp qconf.c2h) [i])
    (h : HasAdded x s.added s.dev)
    (hqidx : qconf'.qidx = i) (hfree : i ∈ suitable x.lib.dev qconf.st (dirsOf isQp qconf.c2h))
    (hloop : queueLoop (addQ env qdmaQueueIdxInvalid) isQp qconf.c2h (n + 1) 0 { dev := x } qconf =
      queueLoop (addQ env qdmaQueueIdxInvalid) isQp qconf.c2h n 1 s qconf') :
    AddsAuto x qconf.st (dirsOf isQp qconf.c2h) (n + 1) (xnlQAdd env attrs x) ↔
      n + 1 = 1 ∨ (suitable x.lib.dev qconf.st (dirsOf isQp qconf.c2h)).length = 1 := by
  have hmem : (qconf.c2h, qconf'.qidx) ∈ s.added := by
    rw [hadded, hqidx]
    cases isQp <;> exact List.mem_cons_self
  obtain ⟨hend, hsame, hpassed, hneg⟩ := queueLoop_taken env isQp n 1 h rfl hg hq hmem
  generalize hp : queueLoop (addQ env qdmaQueueIdxInvalid) isQp qconf.c2h n 1 s qconf' = p
    at hend hsame hpassed hneg hloop
  obtain ⟨hdev, hlist, hrv⟩ := xnlQAdd_loop env x hget hauto hn hloop
  have hpos := List.length_pos_of_mem hfree
  rw [addsAuto_iff [i] (by rw [hdev, hlist, hsame]; exact hend)
    (hlist.trans (hsame.trans hadded)) (dirsOf_pos isQp qconf.c2h) (List.nodup_singleton i)
    (List.forall_mem_singleton.mpr hfree) ?_, List.length_singleton]
  · omega
  · rw [hrv, List.length_singleton]
    by_cases hzero : n = 0
    · rw [if_pos (hpassed.mpr hzero), hzero]
      exact iff_of_false (lt_irrefl 0) (lt_irrefl 1)
    · rw [if_neg (fun h => hzero (hpassed.mp h))]
      exact iff_of_true (hneg hzero) (by omega)

/-- Without a place for the first queue nothing is added. -/
theorem addsAuto_none (hget : qconfGet attrs = .ok (qconf, isQp))
    (hauto : qconf.qidx = qdmaQueueIdxInvalid) (hn : attrs xnlAttrNumQ = some (n + 1))
    (hp : x.lib.dev.addPlace (xpAdd env 0 qconf).call = none)
    (hret : ¬ x.lib.dev.AddFaults (xpAdd env 0 qconf).call) :
    AddsAuto x qconf.st (dirsOf isQp qconf.c2h) (n + 1) (xnlQAdd env attrs x) ↔
      (suitable x.lib.dev qconf.st (dirsOf isQp qconf.c2h)).length = 0 := by
  obtain ⟨hneg, hend, -⟩ := (HasAdded.refl x).fail hp hret
  obtain ⟨hdev, hadded, hrv⟩ := xnlQAdd_loop env x hget hauto hn
    (queueLoop_failed (addQ_fails { dev := x } hneg))
  rw [addsAuto_iff [] (by rw [hdev, hadded]; exact hend) hadded
    (dirsOf_pos isQp qconf.c2h) List.nodup_nil
    (fun i hi => absurd hi List.not_mem_nil) ?_, List.length_nil]
  · omega
  · rw [hrv, if_neg (fun h => nomatch h)]
    exact iff_of_true hneg (Nat.succ_pos n)

/-- Without a device the first call does not return. -/
theorem not_addsAuto_faults (hget : qconfGet attrs = .ok (qconf, isQp))
    (hauto : qconf.qidx = qdmaQueueIdxInvalid) (hn : attrs xnlAttrNumQ = some (n + 1))
    (hp : x.lib.dev.addPlace (xpAdd env 0 qconf).call = none)
    (hf : x.lib.dev.AddFaults (xpAdd env 0 qconf).call) :
    ¬ AddsAuto x qconf.st (dirsOf isQp qconf.c2h) (n + 1) (xnlQAdd env attrs x) := by
  rintro ⟨is, hr⟩
  have hneg : (x.queueAdd (xpAdd env 0 qconf)).2 < 0 := by
    have hcases := xpQueueAdd_cases x (xpAdd env 0 qconf)
    generalize x.queueAdd (xpAdd env 0 qconf) = r at hcases
    cases hcases with
    | none _ hrv _ => exact hrv
    | unprepared i hi _ _ _ _ => exact nomatch hp.symm.trans hi
    | outside i h _ _ => exact nomatch hp.symm.trans h.place
    | joined i k h _ _ => exact nomatch hp.symm.trans h.place
    | own i d h _ _ _ _ => exact nomatch hp.symm.trans h.place
    | failed i h _ _ _ _ _ _ => exact nomatch hp.symm.trans h.place
  obtain ⟨hdev, -, -⟩ := xnlQAdd_loop env x hget hauto hn
    (queueLoop_failed (addQ_fails { dev := x } hneg))
  have hret := hr.returns
  rw [hdev, xpQueueAdd_lib] at hret
  exact (idQueueAdd_faults x.lib _ _).mp hret hf

/-- **A step that fails** behind the search leaves a queue that has not been added. -/
theorem not_addsAuto_half (hget : qconfGet attrs = .ok (qconf, isQp))
    (hauto : qconf.qidx = qdmaQueueIdxInvalid) (hn : attrs xnlAttrNumQ = some (n + 1))
    (hq : x.lib.dev.qmax < 2 ^ 16)
    (hp : x.lib.dev.addPlace (xpAdd env 0 qconf).call = some ((xpAdd env 0 qconf).qconf, i))
    (hno : ¬ x.AddsWhole (xpAdd env 0 qconf) i) :
    ¬ AddsAuto x qconf.st (dirsOf isQp qconf.c2h) (n + 1) (xnlQAdd env attrs x) := by
  rintro ⟨is, hr⟩
  obtain ⟨hi, -, hoff⟩ := findQueue_ok (addPlace_some hp).2 (addPlace_some hp).1.2.2.2.2.1
  have hauto' := addQ_auto env 0 { dev := x } qconf
  have hhalf := queueAdd_half hp hno
  generalize hadd : x.queueAdd (xpAdd env 0 qconf) = r at hhalf
  -- what the first pass leaves, the loop keeps
  generalize hloop : queueLoop (addQ env qdmaQueueIdxInvalid) isQp qconf.c2h (n + 1) 0
    { dev := x } qconf = p
  obtain ⟨hdev, hadded, -⟩ := xnlQAdd_loop env x hget hauto hn hloop
  cases hhalf with
  | @failed y' rv hrv hon =>
      -- it is enabled, and the command has failed
      have hneg : (x.queueAdd (xpAdd env 0 qconf)).2 < 0 := by
        rw [hadd]
        exact hrv
      rw [queueLoop_failed (addQ_fails { dev := x } hneg), hadd] at hloop
      have hothers := hr.others (qconf.c2h, i) hi
      rw [hdev, hadded, ← hloop] at hothers
      rcases hothers.mp hon with hen | hmem
      · exact Bool.false_ne_true (hoff.symm.trans hen)
      · exact absurd hmem List.not_mem_nil
  | @outside y' rv hrv htable hout =>
      -- it has been passed over as added, without an entry
      have hbody : ∀ j s qconf', PassedOver x (qconf.c2h, i) s →
          PassedOver x (qconf.c2h, i) (addQ env qdmaQueueIdxInvalid j s qconf').1.1 :=
        addQ_passedOver env x (qconf.c2h, i)
      have hneg : ¬ (x.queueAdd (xpAdd env 0 qconf)).2 < 0 := by
        rw [hadd]
        exact Int.not_lt.mpr hrv
      have hfirst : PassedOver x (qconf.c2h, i)
          (addQ env qdmaQueueIdxInvalid 0 { dev := x } qconf).1.1 := by
        rw [addQ_auto, if_neg hneg]
        refine ⟨?_, xpQueueAdd_qmax x _⟩
        rw [← hout]
        exact List.mem_append_right _ (List.mem_singleton_self _)
      obtain ⟨-, hend⟩ := @queueLoop_keeps_succ AddState (addQ env qdmaQueueIdxInvalid)
        (fun s _ => PassedOver x (qconf.c2h, i) s) isQp qconf.c2h n 0 { dev := x } qconf
        (fun _ _ _ h => h) hbody (fun _ qconf' h => queueLoop_keeps (fun _ _ _ h => h) hbody _ _ _ _
          qconf' h) hfirst
      rw [hloop] at hend
      have hlt : i < x.qmax := by
        rw [← hend.2, ← hdev]
        exact (hr.stands (qconf.c2h, i) (hadded ▸ hend.1)).inTable
      exact absurd hlt (Nat.not_lt.mpr htable)
  | @astray y' k hlt hout hqmax htable hon hentry hdead =>
      -- it has joined something that is not there
      have hbody := @StrayEntry.addQ x (qconf.c2h, i) k hq hi hlt env
      have hfirst : StrayEntry x (qconf.c2h, i) k
          (addQ env qdmaQueueIdxInvalid 0 { dev := x } qconf).1.1 ∧
          (addQ env qdmaQueueIdxInvalid 0 { dev := x } qconf).1.2.qidx = i := by
        rw [addQ_auto, hadd, if_neg (lt_irrefl 0)]
        refine ⟨⟨?_, hqmax, htable, hon, hentry, hdead⟩, hout⟩
        rw [← hout]
        exact List.mem_append_right _ (List.mem_singleton_self _)
      obtain ⟨-, hend, -⟩ := @queueLoop_keeps_succ AddState (addQ env qdmaQueueIdxInvalid)
        (fun s qconf' => StrayEntry x (qconf.c2h, i) k s ∧ qconf'.qidx = i) isQp qconf.c2h n 0
        { dev := x } qconf (fun _ _ _ h => h) hbody
        (fun _ qconf' h => queueLoop_keeps (fun _ _ _ h => h) hbody _ _ _ _ qconf' h) hfirst
      rw [hloop] at hend
      obtain ⟨-, -, k', hlive, hk'⟩ := hr.stands (qconf.c2h, i) (hadded ▸ hend.added)
      rw [hdev] at hlive hk'
      rw [place_of_qmax hend.table] at hk'
      have heq : some k' = some k := (congrArg XlnxQdata.xcdev hk').symm.trans hend.entry
      exact hend.dead (Option.some.inj heq ▸ hlive)

/-- **A first queue that is added whole**: a pair needs the other one, too. -/
theorem addsAuto_whole (hget : qconfGet attrs = .ok (qconf, isQp))
    (hauto : qconf.qidx = qdmaQueueIdxInvalid) (hn : attrs xnlAttrNumQ = some (n + 1))
    (hq : x.lib.dev.qmax < 2 ^ 16)
    (hp : x.lib.dev.addPlace (xpAdd env 0 qconf).call = some ((xpAdd env 0 qconf).qconf, i))
    (hwhole : x.AddsWhole (xpAdd env 0 qconf) i) :
    AddsAuto x qconf.st (dirsOf isQp qconf.c2h) (n + 1) (xnlQAdd env attrs x) ↔
      (isQp = true → (x.lib.dev.descq (x.lib.dev.queueId (!qconf.c2h) i)).enabled = false ∧
        x.lib.dev.qcnt (!qconf.c2h) < x.lib.dev.qmax) ∧
      (n + 1 = 1 ∨ (suitable x.lib.dev qconf.st (dirsOf isQp qconf.c2h)).length = 1) := by
  have hfirst := addQ_adds { dev := x } hp hwhole
  have hafter := (HasAdded.refl x).add hp hwhole
  have hg : x.lib.dev.gone = false := (addPlace_some hp).1.2.2.2.1
  cases isQp with
  | false =>
      rw [addsAuto_first env i hget hauto hn hq hg rfl hafter rfl
        (mem_suitable hp (fun h => Bool.noConfusion h)) (queueLoop_single hfirst)]
      exact (and_iff_right (fun h => Bool.noConfusion h)).symm
  | true =>
      by_cases hother : (x.lib.dev.descq (x.lib.dev.queueId (!qconf.c2h) i)).enabled = false ∧
          x.lib.dev.qcnt (!qconf.c2h) < x.lib.dev.qmax
      · obtain ⟨hp', hwhole'⟩ := addPlace_other
          (d := xpAdd env 0 { qconf with qidx := i, c2h := !qconf.c2h }) hp hwhole hq
          ⟨rfl, rfl, rfl⟩ hother.1 hother.2
        have hsecond := addQ_adds (i := 0)
          { dev := (x.queueAdd (xpAdd env 0 qconf)).1, added := [(qconf.c2h, i)] } hp' hwhole'
        rw [addsAuto_first env i hget hauto hn hq hg rfl (hafter.add hp' hwhole') rfl
          (mem_suitable hp (fun _ => hother.1))
          ((queueLoop_pair hfirst rfl hsecond).trans (if_pos rfl))]
        exact (and_iff_right (fun _ => hother)).symm
      · -- half a pair has been added
        have hp' := addPlace_other_none
          (d := xpAdd env 0 { qconf with qidx := i, c2h := !qconf.c2h }) hp hwhole hq rfl rfl hother
        obtain ⟨hneg, -, -⟩ := hafter.fail hp' (hafter.not_faults hg _)
        have hsecond := addQ_fails (i := 0)
          { dev := (x.queueAdd (xpAdd env 0 qconf)).1, added := [(qconf.c2h, i)] } hneg
        have hloop := (queueLoop_pair (n := n) hfirst rfl hsecond).trans
          (if_neg (fun h => nomatch h))
        refine iff_of_false ?_ (fun h => hother (h.1 rfl))
        rintro ⟨is, hr⟩
        have hadded := (xnlQAdd_loop env x hget hauto hn hloop).2.1
        have hlen := congrArg List.length (hadded.symm.trans hr.added)
        rw [length_queuesOf] at hlen
        have htwo : 1 = is.length * 2 := hlen
        omega

end Command

/-- **When adding queues with automatic indices works**: for every device, every command that asks
for automatic indices and all answers. -/
theorem auto_add_iff (env : ℕ → Bool → AddEnv) {attrs : InfoAttrs} {x : XpDev}
    (hq : x.lib.dev.qmax < 2 ^ 16) {qconf : StartConf} {isQp : Bool} {n : ℕ}
    (hget : qconfGet attrs = .ok (qconf, isQp)) (hauto : qconf.qidx = qdmaQueueIdxInvalid)
    (hn : attrs xnlAttrNumQ = some n) :
    AddsAuto x qconf.st (dirsOf isQp qconf.c2h) n (xnlQAdd env attrs x) ↔
      AutoFits env x qconf isQp n := by
  unfold AutoFits
  simp only
  cases n with
  | zero =>
      obtain ⟨hdev, hadded, hrv⟩ := xnlQAdd_loop env x hget hauto hn rfl
      refine iff_of_true ?_ (.inl rfl)
      rw [addsAuto_iff [] (by rw [hdev, hadded]; exact .refl x) hadded
        (dirsOf_pos isQp qconf.c2h) List.nodup_nil (fun i hi => absurd hi List.not_mem_nil) ?_]
      · exact (Nat.zero_min _).symm
      · rw [hrv, if_pos rfl]
        exact iff_of_false (lt_irrefl 0) (lt_irrefl 0)
  | succ n =>
      rw [or_iff_right (Nat.succ_ne_zero n)]
      cases hp : x.lib.dev.addPlace (xpAdd env 0 qconf).call with
      | none =>
          rw [or_iff_left (fun ⟨i, hi, _⟩ => nomatch hi)]
          by_cases hf : x.lib.dev.AddFaults (xpAdd env 0 qconf).call
          · exact iff_of_false (not_addsAuto_faults hget hauto hn hp hf) (fun h => h.2.2 hf)
          · rw [addsAuto_none hget hauto hn hp hf]
            exact ⟨fun h => ⟨h, rfl, hf⟩, fun h => h.1⟩
      | some p =>
          obtain ⟨qconf', i⟩ := p
          obtain rfl : qconf' = (xpAdd env 0 qconf).qconf :=
            (Option.some.inj (addPlace_some hp).1.1).symm
          rw [or_iff_right (fun h => nomatch h.2.1)]
          by_cases hwhole : x.AddsWhole (xpAdd env 0 qconf) i
          · rw [addsAuto_whole hget hauto hn hq hp hwhole]
            refine ⟨fun h => ⟨i, rfl, hwhole, h⟩, ?_⟩
            rintro ⟨j, hj, -, h⟩
            obtain rfl : i = j := (Prod.mk.inj (Option.some.inj hj)).2
            exact h
          · refine iff_of_false (not_addsAuto_half hget hauto hn hq hp hwhole) ?_
            rintro ⟨j, hj, hj', -⟩
            obtain rfl : i = j := (Prod.mk.inj (Option.some.inj hj)).2
            exact hwhole hj'

/-- The attributes of a command for `n` queues, with these flags and automatic indices. -/
def autoAttrs (flags : BitVec 32) (n : ℕ) : InfoAttrs := fun t =>
  if t = xnlAttrQflag then some flags.toNat
  else if t = xnlAttrQidx then some 0xFFFF
  else if t = xnlAttrNumQ then some n
  else none

/-- A pair is added, if it is the only one asked for. -/
theorem auto_add_pair :
    AddsAuto (XpDev.probeOne (fourPairs false)) false [true, false] 1
      (xnlQAdd (fun _ _ => {}) (autoAttrs xnlFQdirBoth 1) (XpDev.probeOne (fourPairs false))) := by
  have hget : qconfGet (autoAttrs xnlFQdirBoth 1) =
      .ok ({ c2h := true, qidx := 0xFFFF }, true) := rfl
  refine (auto_add_iff (fun _ _ => {}) (by decide) hget rfl rfl).mpr
    (.inr (.inr ⟨0, ?_, ⟨?_, ?_, ?_⟩, ?_, .inl rfl⟩))
  · rfl
  · exact .inr ⟨fun h => Bool.noConfusion h, true, _, rfl, fun _ => le_rfl⟩
  · decide
  · exact ⟨rfl, by decide, le_rfl, fun _ => rfl⟩
  · exact fun _ => ⟨rfl, by decide⟩

/-- **The second index is the first.**  Of two queues one is added, and the other is looked for at
the same index, although four are free; and a pair is left half added if the first C2H queue that is
free is that of an H2C queue that is not. -/
theorem auto_add_twice :
    (xnlQAdd (fun _ _ => {}) (autoAttrs xnlFQdirH2c 2) (XpDev.probeOne (fourPairs false))).added =
        [(false, 0)] ∧
      (suitable (fourPairs false).dev false [false]).length = 4 ∧
      ¬ AddsAuto (XpDev.probeOne (fourPairs false)) false [false] 2
        (xnlQAdd (fun _ _ => {}) (autoAttrs xnlFQdirH2c 2) (XpDev.probeOne (fourPairs false))) ∧
      let x := ((XpDev.probeOne (fourPairs false)).queueAdd { qconf := { qidx := 0 } }).1
      (xnlQAdd (fun _ _ => {}) (autoAttrs xnlFQdirBoth 1) x).added = [(true, 0)] ∧
      (suitable x.lib.dev false [true, false]).length = 3 ∧
      ¬ AddsAuto x false [true, false] 1
        (xnlQAdd (fun _ _ => {}) (autoAttrs xnlFQdirBoth 1) x) := by
  have hone : (xnlQAdd (fun _ _ => {}) (autoAttrs xnlFQdirH2c 2)
      (XpDev.probeOne (fourPairs false))).added = [(false, 0)] := by decide +kernel
  have hfour : (suitable (fourPairs false).dev false [false]).length = 4 := by decide +kernel
  have hhalf : (xnlQAdd (fun _ _ => {}) (autoAttrs xnlFQdirBoth 1)
      ((XpDev.probeOne (fourPairs false)).queueAdd { qconf := { qidx := 0 } }).1).added =
        [(true, 0)] := by decide +kernel
  refine ⟨hone, hfour, ?_, hhalf, by decide +kernel, ?_⟩
  · rintro ⟨is, hr⟩
    have hcount := hr.count
    have hlen := congrArg List.length (hone.symm.trans hr.added)
    rw [length_queuesOf] at hlen
    rw [show suitable (XpDev.probeOne (fourPairs false)).lib.dev false [false] =
      suitable (fourPairs false).dev false [false] from rfl, hfour] at hcount
    rw [hcount] at hlen
    exact absurd hlen (by decide)
  · rintro ⟨is, hr⟩
    have hlen := congrArg List.length (hhalf.symm.trans hr.added)
    rw [length_queuesOf] at hlen
    have htwo : 1 = is.length * 2 := hlen
    omega

end Qdma
