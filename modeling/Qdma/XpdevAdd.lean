/-
# Adding a queue with its character device

`xpdev_queue_add` adds a queue to the library, looks its entry up and gives it a character device.
What has been done before a step that fails stays done: the queue stays enabled, and the entry gets
whatever the pointer to the character device held before.

`queue_add_iff`: it is all or nothing just when there is a device to search and no step behind the
search for a queue fails.
-/
import Qdma.Cdev

namespace Qdma

/-! ## What is asked of it -/

/-- A character device that is there. -/
def XpDev.Live (x : XpDev) (k : ℕ) : Prop := k < x.next ∧ x.destroyed k = 0

/-- No entry has a pointer to anything but a character device that is there. -/
def XpDev.Tidy (x : XpDev) : Prop := ∀ n k, (x.qdata n).xcdev = some k → x.Live k

/-- **The queue is added**: it is enabled, and its entry has its handle and a live character device,
which has the handle, too. -/
structure QueueAdded (x x' : XpDev) (q : QRef) : Prop where
  enabled : (x'.lib.dev.descq (x.lib.dev.refId q)).enabled = true
  inTable : q.2 < x.qmax
  entry : ∃ k, x'.Live k ∧ x'.qdata (x.place q) = { qhndl := x.lib.dev.refId q, xcdev := some k } ∧
    (x'.cdevs k).qhndl q.1 = x.lib.dev.refId q

/-- **Nothing is left**: no queue is enabled, no entry changed, and no character device made. -/
structure NothingAdded (x x' : XpDev) : Prop where
  enabled : ∀ id, (x'.lib.dev.descq id).enabled = (x.lib.dev.descq id).enabled
  table : x'.qdata = x.qdata
  cdevs : x'.cdevs = x.cdevs ∧ x'.next = x.next ∧ x'.destroyed = x.destroyed

/-- One or the other, and a table that was tidy stays so. -/
def Whole (x : XpDev) (c : XpAdd) (r : XpDev × ℤ) : Prop :=
  (x.Tidy → r.1.Tidy) ∧
    (r.2 = 0 ∧ QueueAdded x r.1 (c.qconf.c2h, (x.lib.addOut c).1) ∨ r.2 < 0 ∧ NothingAdded x r.1)

/-- **All or nothing**: the call returns, with one or the other. -/
def AllOrNothing (x : XpDev) (c : XpAdd) : Prop :=
  (x.queueAdd c).1.lib.dev.faults = x.lib.dev.faults ∧ Whole x c (x.queueAdd c)

/-- A character device can be made. -/
def CreateEnv.Creates (env : CreateEnv) (xcb : QdmaCdevCb) (minor : ℕ) : Prop :=
  env.allocOk = true ∧ minor < xcb.cdevMinorCnt ∧ 0 ≤ env.addRv ∧
    (env.hasClass = true → env.sysErr = none)

/-- **No step behind the search fails**: the resources can be prepared, the table has the index, and
the other direction has a character device that is there; or it has none, and one can be made. -/
def XpDev.AddsWhole (x : XpDev) (c : XpAdd) (i : ℕ) : Prop :=
  PrepOk x.lib c.prep ∧ i < x.qmax ∧
    match (x.qdata (x.place (!c.qconf.c2h, i))).xcdev with
    | some k => x.Live k
    | none => c.create.Creates x.cdevCb i

/-! ## The library -/

/-- **When the resources are prepared.** -/
theorem prepQResource_iff (s : IdDev) (env : PrepEnv) :
    0 ≤ (s.prepQResource env).2 ↔ PrepOk s env := by
  refine ⟨fun h => ?_, prepQResource_ok⟩
  unfold IdDev.prepQResource at h
  by_cases hinit : s.initQrange = true
  · exact .inl hinit
  rw [if_neg hinit] at h
  have hset : (s.dev.vf = true → 0 ≤ env.fmapRv) ∧
      (s.deviceSetQrange env).1.conf.pollMode = s.conf.pollMode ∧
        intrRingSetup (s.deviceSetQrange env).1.conf env.allocOk =
          intrRingSetup s.conf env.allocOk ∨ (s.deviceSetQrange env).2 < 0 := by
    unfold IdDev.deviceSetQrange
    by_cases hvf : s.dev.vf = true
    · rw [if_pos hvf]
      by_cases hrv : env.fmapRv < 0
      · rw [if_pos hrv]
        exact .inr hrv
      · rw [if_neg hrv]
        exact .inl ⟨fun _ => Int.not_lt.mp hrv, rfl, rfl⟩
    · rw [if_neg hvf]
      exact .inl ⟨fun hv => absurd hv hvf, rfl, rfl⟩
  simp only at h
  rcases hset with ⟨hfmap, -, hring⟩ | hneg
  swap
  · rw [if_pos hneg] at h
    exact absurd hneg (Int.not_lt.mpr h)
  by_cases hneg : (s.deviceSetQrange env).2 < 0
  · rw [if_pos hneg] at h
    exact absurd hneg (Int.not_lt.mpr h)
  rw [if_neg hneg, hring] at h
  cases hsetup : intrRingSetup s.conf env.allocOk with
  | error rv =>
      rw [hsetup] at h
      have hneg : rv < 0 := by
        rw [intrRingSetup_error hsetup]
        decide
      exact absurd hneg (Int.not_lt.mpr h)
  | ok p =>
      obtain ⟨coal, l⟩ := p
      rw [hsetup] at h
      refine .inr ⟨hfmap, coal, l, hsetup, fun hcoal => ?_⟩
      simp only at h
      rwa [if_pos hcoal] at h

/-- What is added to a count is not a fault. -/
theorem queueClaim_faults (x : QdmaDev) (c : AddCall) (qconf : QueueConf) :
    (x.queueClaim c qconf).1.faults = x.faults := by
  have huncount : ∀ (y : QdmaDev) (b : Bool), (y.uncount b).faults = y.faults := by
    intro y b
    cases b <;> rfl
  unfold QdmaDev.queueClaim
  cases x.findQueue qconf with
  | error e =>
      simp only
      by_cases htr : truncated c.buflen e.2 = true
      · rw [if_pos htr]
      · rw [if_neg htr]
        exact huncount x _
  | ok i =>
      simp only
      by_cases hprep : c.prep < 0
      · rw [if_pos hprep]
        exact huncount _ _
      · rw [if_neg hprep]
        rfl

/-- **When `qdma_queue_add` returns.** -/
theorem queueAdd_faults (x : QdmaDev) (c : AddCall) :
    (x.queueAdd c).1.faults = x.faults ↔ ¬ x.AddFaults c := by
  rcases queueAdd_cases x c with ⟨qconf, hcounts, heq⟩ | ⟨-, ⟨n, hsame, hn⟩, -⟩
  · rw [heq, queueClaim_faults]
    refine iff_of_true ?_ (fun h => ?_)
    · cases qconf.c2h <;> rfl
    · exact Bool.false_ne_true (hcounts.2.2.2.1.symm.trans h.1)
  · rw [hsame]
    exact hn

theorem idQueueAdd_faults (s : IdDev) (c : AddCall) (env : PrepEnv) :
    (s.queueAdd c env).1.dev.faults = s.dev.faults ↔ ¬ s.dev.AddFaults c := by
  unfold IdDev.queueAdd
  cases hp : s.dev.addPlace c with
  | none => exact queueAdd_faults s.dev c
  | some p =>
      obtain ⟨-, ⟨b, hdev⟩, -⟩ := prepQResource_prepared s env
      simp only
      generalize s.prepQResource env = r at hdev ⊢
      obtain ⟨s1, prep⟩ := r
      simp only at hdev ⊢
      have hiff := queueAdd_faults s1.dev { c with prep := prep }
      rw [show s1.dev.faults = s.dev.faults by rw [hdev],
        show s1.dev.AddFaults { c with prep := prep } ↔ s.dev.AddFaults c by rw [hdev]; rfl] at hiff
      exact hiff

theorem idQueueAdd_qmax (s : IdDev) (c : AddCall) (env : PrepEnv) :
    (s.queueAdd c env).1.dev.qmax = s.dev.qmax := by
  have hadd : ∀ (x : QdmaDev) (c : AddCall), (x.queueAdd c).1.qmax = x.qmax :=
    fun x c => congrArg (·.2.2.1) (queueAdd_fixed x c)
  unfold IdDev.queueAdd
  cases hp : s.dev.addPlace c with
  | none => exact hadd s.dev c
  | some p =>
      obtain ⟨-, ⟨b, hdev⟩, -⟩ := prepQResource_prepared s env
      refine (hadd _ _).trans ?_
      rw [hdev]

/-- No call disables a queue. -/
theorem queueAdd_stays (x : QdmaDev) (c : AddCall) {id : ℕ} (hen : (x.descq id).enabled = true) :
    ((x.queueAdd c).1.descq id).enabled = true := by
  have hset : ∀ (y : QdmaDev) (id' : ℕ) (d : Descq), d.enabled = true →
      (y.descq id).enabled = true → ((y.setDescq id' d).descq id).enabled = true := by
    intro y id' d hd hy
    by_cases hid : id = id'
    · rw [hid, setDescq_self]
      exact hd
    · rw [setDescq_of_ne _ _ hid]
      exact hy
  rcases queueAdd_cases x c with ⟨qconf, -, heq⟩ | ⟨-, ⟨n, hsame, -⟩, -⟩
  swap
  · rw [hsame]
    exact hen
  have hcount : ((x.count qconf.c2h).descq id).enabled = true :=
    ((count_sameIds x qconf.c2h).enabled id).trans hen
  rw [heq]
  unfold QdmaDev.queueClaim
  cases (x.count qconf.c2h).findQueue qconf with
  | error e =>
      simp only
      by_cases htr : truncated c.buflen e.2 = true
      · rw [if_pos htr]
        exact hcount
      · rw [if_neg htr]
        exact ((uncount_sameIds _ _).enabled id).trans hcount
  | ok i =>
      simp only
      have hclaim := hset _ ((x.count qconf.c2h).queueId qconf.c2h i)
        { (x.count qconf.c2h).descq ((x.count qconf.c2h).queueId qconf.c2h i) with enabled := true }
        rfl hcount
      by_cases hprep : c.prep < 0
      · rw [if_pos hprep]
        exact ((uncount_sameIds _ _).enabled id).trans hclaim
      · rw [if_neg hprep]
        refine hset _ _ _ ?_ hclaim
        rw [setDescq_self]
        rfl

theorem idQueueAdd_stays (s : IdDev) (c : AddCall) (env : PrepEnv) {id : ℕ}
    (hen : (s.dev.descq id).enabled = true) :
    ((s.queueAdd c env).1.dev.descq id).enabled = true := by
  unfold IdDev.queueAdd
  cases hp : s.dev.addPlace c with
  | none => exact queueAdd_stays s.dev c hen
  | some p =>
      obtain ⟨-, ⟨b, hdev⟩, -⟩ := prepQResource_prepared s env
      refine queueAdd_stays _ _ ?_
      rw [hdev]
      exact hen

/-- **A call that finds a queue enables it**, whether or not the resources can be prepared. -/
theorem queueAdd_found {x : QdmaDev} {c : AddCall} {qconf : QueueConf} {i : ℕ}
    (h : x.addPlace c = some (qconf, i)) :
    (c.prep < 0 ↔ (x.queueAdd c).2 < 0) ∧ (x.descq (x.queueId qconf.c2h i)).enabled = false ∧
      ((x.queueAdd c).1.descq (x.queueId qconf.c2h i)).enabled = true := by
  obtain ⟨hcounts, hf⟩ := addPlace_some h
  have hoff := (findQueue_ok hf hcounts.2.2.2.2.1).2.2
  rw [queueAdd_claims h]
  by_cases hprep : c.prep < 0
  · rw [if_pos hprep]
    refine ⟨iff_of_true hprep hprep, hoff, ?_⟩
    rw [(uncount_sameIds _ _).enabled, setDescq_self]
  · rw [if_neg hprep]
    refine ⟨iff_of_false hprep ?_, hoff, ?_⟩
    · simp only
      split_ifs
      · exact hprep
      · exact lt_irrefl 0
    · rw [setDescq_self, setDescq_self]
      rfl

/-- **What the library does**: it finds no queue; it enables one and fails; or it enables one and
gives out its number. -/
inductive LibAdd (s : IdDev) (c : XpAdd) (s' : IdDev) (rv : ℤ) : Prop where
  | none (hp : s.dev.addPlace c.call = none) (hrv : rv < 0) (hsame : SameIds s.dev s'.dev)
  | unprepared (i : ℕ) (hp : s.dev.addPlace c.call = some (c.qconf, i)) (hno : ¬ PrepOk s c.prep)
      (hrv : rv < 0) (hoff : (s.dev.descq (s.dev.refId (c.qconf.c2h, i))).enabled = false)
      (hon : (s'.dev.descq (s.dev.refId (c.qconf.c2h, i))).enabled = true)
  | added (i : ℕ) (hp : s.dev.addPlace c.call = some (c.qconf, i)) (hprep : PrepOk s c.prep)
      (hrv : 0 ≤ rv) (hoff : (s.dev.descq (s.dev.refId (c.qconf.c2h, i))).enabled = false)
      (hon : (s'.dev.descq (s.dev.refId (c.qconf.c2h, i))).enabled = true)
      (hout : s.addOut c = (i, s.dev.refId (c.qconf.c2h, i)))

theorem idQueueAdd_cases (s : IdDev) (c : XpAdd) :
    LibAdd s c (s.queueAdd c.call c.prep).1 (s.queueAdd c.call c.prep).2 := by
  have hiff := prepQResource_iff s c.prep
  cases hp : s.dev.addPlace c.call with
  | none =>
      unfold IdDev.queueAdd
      rw [hp]
      refine .none hp ?_ (queueAdd_noPlace hp)
      by_contra hrv
      obtain ⟨qconf, i, hplace, -⟩ := queueAdd_rv (Int.not_lt.mp hrv)
      exact Option.some_ne_none _ (hplace.symm.trans hp)
  | some p =>
      obtain ⟨qconf, i⟩ := p
      obtain rfl : c.qconf = qconf := Option.some.inj (addPlace_some hp).1.1
      have hout := addOut_some hp
      obtain ⟨b, hplace, hdev, hval⟩ := idQueueAdd_place c.prep hp
      obtain ⟨hrv, hoff, hon⟩ := queueAdd_found hplace
      rw [hdev] at hout
      rw [← hval] at hrv
      rw [← hdev] at hon
      by_cases hprep : (s.prepQResource c.prep).2 < 0
      · exact .unprepared i hp (fun h => absurd hprep (Int.not_lt.mpr (hiff.mpr h)))
          (hrv.mp hprep) hoff hon
      · have hpos := Int.not_lt.mp hprep
        rw [if_neg hprep, queueAdd_handle hplace hpos] at hout
        exact .added i hp (hiff.mp hpos) (Int.not_lt.mp (fun h => hprep (hrv.mpr h))) hoff hon hout

/-! ## The table -/

/-- **When a character device is made.** -/
theorem cdevCreate_iff (xcb : QdmaCdevCb) (name : String) (c2h : Bool) (minor qhndl : ℕ)
    (env : CreateEnv) :
    (∃ d, xcb.cdevCreate name c2h minor qhndl env = .ok d) ↔ env.Creates xcb minor := by
  have hminor : (({ dirInit := dirBit c2h, name := name, minor := minor } : QdmaCdev).setQhndl c2h
      qhndl).minor = minor := by
    unfold QdmaCdev.setQhndl
    cases c2h <;> rfl
  have herr : ∀ e : ℤ × String, ¬ ∃ d : QdmaCdev, (.error e : Except _ QdmaCdev) = .ok d := by
    rintro e ⟨d, hd⟩
    exact nomatch hd
  unfold QdmaCdevCb.cdevCreate CreateEnv.Creates
  cases halloc : env.allocOk with
  | false => exact iff_of_false (herr _) (fun h => Bool.false_ne_true h.1)
  | true =>
  simp only [Bool.not_true, Bool.false_eq_true, if_false, hminor, true_and]
  by_cases hcnt : minor ≥ xcb.cdevMinorCnt
  · rw [if_pos hcnt]
    exact iff_of_false (herr _) (fun h => Nat.not_lt.mpr hcnt h.1)
  rw [if_neg hcnt]
  by_cases hadd : env.addRv < 0
  · rw [if_pos hadd]
    exact iff_of_false (herr _) (fun h => Int.not_lt.mpr h.2.1 hadd)
  rw [if_neg hadd]
  cases hclass : env.hasClass with
  | false =>
      rw [if_neg Bool.false_ne_true]
      exact iff_of_true ⟨_, rfl⟩
        ⟨Nat.lt_of_not_ge hcnt, Int.not_lt.mp hadd, fun h => absurd h Bool.false_ne_true⟩
  | true =>
  rw [if_pos rfl]
  cases hsys : env.sysErr with
  | none =>
      exact iff_of_true ⟨_, rfl⟩ ⟨Nat.lt_of_not_ge hcnt, Int.not_lt.mp hadd, fun _ => rfl⟩
  | some e => exact iff_of_false (herr _) (fun h => nomatch h.2.2 rfl)

/-- An entry with a live character device. -/
theorem XpDev.Tidy.set {x x' : XpDev} (h : x.Tidy) {n k : ℕ} {qd : XlnxQdata}
    (hq : x'.qdata = Function.update x.qdata n qd) (hk : qd.xcdev = some k) (hlive : x'.Live k)
    (hkeep : ∀ j, x.Live j → x'.Live j) : x'.Tidy := by
  intro m j hj
  rw [hq] at hj
  by_cases hm : m = n
  · rw [hm, Function.update_self] at hj
    obtain rfl : k = j := Option.some.inj (hk.symm.trans hj)
    exact hlive
  · rw [Function.update_of_ne hm] at hj
    exact hkeep j (h m j hj)

/-- Those that are there stay when another is made. -/
theorem XpDev.Live.newCdev {x x' : XpDev} {j : ℕ} (h : x.Live j) (hnext : x'.next = x.next + 1)
    (hd : x'.destroyed = Function.update x.destroyed x.next 0) : x'.Live j := by
  refine ⟨hnext ▸ Nat.lt_succ_of_lt h.1, ?_⟩
  rw [hd, Function.update_of_ne (Nat.ne_of_lt h.1)]
  exact h.2

/-- **The entry gets a character device of its own**, if one can be made. -/
theorem addCdev_cases (x : XpDev) (c : XpAdd) (n qidx qhndl : ℕ) :
    (c.create.Creates x.cdevCb qidx ∧ ∃ d, d.qhndl c.qconf.c2h = qhndl ∧
        x.addCdev c n qidx qhndl =
          ((x.newCdev d).setQdata n { qhndl := qhndl, xcdev := some x.next }, 0)) ∨
      (¬ c.create.Creates x.cdevCb qidx ∧ (x.addCdev c n qidx qhndl).2 < 0 ∧
        (x.addCdev c n qidx qhndl).1.lib = x.lib ∧ (x.addCdev c n qidx qhndl).1.qmax = x.qmax) := by
  have hiff := cdevCreate_iff x.cdevCb (x.lib.dev.qName c.qconf.st qidx) c.qconf.c2h qidx qhndl
    c.create
  unfold XpDev.addCdev
  rcases cdevCreate_cases x.cdevCb (x.lib.dev.qName c.qconf.st qidx) c.qconf.c2h qidx qhndl c.create
    with ⟨e, he, hneg⟩ | ⟨d, hd, -, hqh⟩
  · right
    rw [he] at hiff ⊢
    refine ⟨fun h => ?_, hneg, rfl, rfl⟩
    obtain ⟨d, hd⟩ := hiff.mpr h
    exact nomatch hd
  · left
    rw [hd] at hiff ⊢
    exact ⟨hiff.mp ⟨d, rfl⟩, d, hqh, rfl⟩

/-- The queue that is added joins the character device of the other direction. -/
theorem queueAdded_join {x : XpDev} {c : XpAdd} {lib : IdDev} {i k : ℕ} (hlt : i < x.qmax)
    (hon : (lib.dev.descq (x.lib.dev.refId (c.qconf.c2h, i))).enabled = true)
    (hk : x.Live k) {x' : XpDev}
    (hx' : x' = ((({ x with lib := lib } : XpDev).touch k).setQdata (x.place (c.qconf.c2h, i))
      { qhndl := x.lib.dev.refId (c.qconf.c2h, i), xcdev := some k }).setCdev k
        ((x.cdevs k).addDir c.qconf.c2h (x.lib.dev.refId (c.qconf.c2h, i)))) :
    (x.Tidy → x'.Tidy) ∧ QueueAdded x x' (c.qconf.c2h, i) := by
  have hqdata : x'.qdata = Function.update x.qdata (x.place (c.qconf.c2h, i))
      { qhndl := x.lib.dev.refId (c.qconf.c2h, i), xcdev := some k } := by rw [hx']; rfl
  have hkeep : ∀ j, x.Live j → x'.Live j := by
    rw [hx']
    exact fun _ hj => hj
  refine ⟨fun h => h.set hqdata rfl (hkeep k hk) hkeep, ?_, hlt, k, hkeep k hk, ?_, ?_⟩
  · rw [hx']
    exact hon
  · rw [hqdata, Function.update_self]
  · rw [hx']
    show (Function.update x.cdevs k _ k).qhndl _ = _
    rw [Function.update_self]
    unfold QdmaCdev.addDir QdmaCdev.setQhndl QdmaCdev.qhndl
    cases c.qconf.c2h <;> rfl

/-- The queue that is added gets a character device of its own. -/
theorem queueAdded_new {x : XpDev} {c : XpAdd} {lib : IdDev} {i : ℕ} {d : QdmaCdev}
    (hlt : i < x.qmax)
    (hon : (lib.dev.descq (x.lib.dev.refId (c.qconf.c2h, i))).enabled = true)
    (hd : d.qhndl c.qconf.c2h = x.lib.dev.refId (c.qconf.c2h, i)) {x' : XpDev}
    (hx' : x' = (({ x with lib := lib } : XpDev).newCdev d).setQdata (x.place (c.qconf.c2h, i))
      { qhndl := x.lib.dev.refId (c.qconf.c2h, i), xcdev := some x.next }) :
    (x.Tidy → x'.Tidy) ∧ QueueAdded x x' (c.qconf.c2h, i) := by
  have hqdata : x'.qdata = Function.update x.qdata (x.place (c.qconf.c2h, i))
      { qhndl := x.lib.dev.refId (c.qconf.c2h, i), xcdev := some x.next } := by rw [hx']; rfl
  have hnext : x'.next = x.next + 1 := by rw [hx']; rfl
  have hdes : x'.destroyed = Function.update x.destroyed x.next 0 := by rw [hx']; rfl
  have hlive : x'.Live x.next := by
    refine ⟨hnext ▸ Nat.lt_succ_self _, ?_⟩
    rw [hdes, Function.update_self]
  refine ⟨fun h => h.set hqdata rfl hlive (fun j hj => hj.newCdev hnext hdes), ?_, hlt, x.next,
    hlive, ?_, ?_⟩
  · rw [hx']
    exact hon
  · rw [hqdata, Function.update_self]
  · rw [hx']
    show (Function.update x.cdevs x.next d x.next).qhndl _ = _
    rw [Function.update_self]
    exact hd

/-- A queue that is enabled and was not is something left. -/
theorem not_nothingAdded {x x' : XpDev} {id : ℕ} (hoff : (x.lib.dev.descq id).enabled = false)
    (hon : (x'.lib.dev.descq id).enabled = true) : ¬ NothingAdded x x' := by
  intro h
  rw [h.enabled, hoff] at hon
  exact Bool.false_ne_true hon

/-- The library has added queue `i`. -/
structure LibAdded (x : XpDev) (c : XpAdd) (i : ℕ) : Prop where
  place : x.lib.dev.addPlace c.call = some (c.qconf, i)
  prep : PrepOk x.lib c.prep
  off : (x.lib.dev.descq (x.lib.dev.refId (c.qconf.c2h, i))).enabled = false
  on : ((x.lib.queueAdd c.call c.prep).1.dev.descq
    (x.lib.dev.refId (c.qconf.c2h, i))).enabled = true
  out : x.lib.addOut c = (i, x.lib.dev.refId (c.qconf.c2h, i))

theorem LibAdded.unique {x : XpDev} {c : XpAdd} {i j : ℕ} (h : LibAdded x c i)
    (hj : x.lib.dev.addPlace c.call = some (c.qconf, j)) : j = i :=
  ((Prod.mk.inj (Option.some.inj (h.place.symm.trans hj))).2).symm

/-- **What a call of `xpdev_queue_add` comes to**: the library finds no queue, or fails with one
that is enabled; or it adds one, and the table does not have its index; or the queue joins the
character device of the other direction, gets its own, or there is none for it. -/
inductive XpAddCases (x : XpDev) (c : XpAdd) (lib : IdDev) : XpDev × ℤ → Prop where
  | none {rv : ℤ} (hp : x.lib.dev.addPlace c.call = none) (hrv : rv < 0)
      (hsame : SameIds x.lib.dev lib.dev) : XpAddCases x c lib ({ x with lib := lib }, rv)
  | unprepared {rv : ℤ} (i : ℕ) (hp : x.lib.dev.addPlace c.call = some (c.qconf, i))
      (hno : ¬ PrepOk x.lib c.prep) (hrv : rv < 0)
      (hoff : (x.lib.dev.descq (x.lib.dev.refId (c.qconf.c2h, i))).enabled = false)
      (hon : (lib.dev.descq (x.lib.dev.refId (c.qconf.c2h, i))).enabled = true) :
      XpAddCases x c lib ({ x with lib := lib }, rv)
  | outside {rv : ℤ} (i : ℕ) (h : LibAdded x c i) (hge : x.qmax ≤ i) (hrv : 0 ≤ rv) :
      XpAddCases x c lib ({ x with lib := lib }, rv)
  | joined (i k : ℕ) (h : LibAdded x c i) (hlt : i < x.qmax)
      (hk : (x.qdata (x.place (!c.qconf.c2h, i))).xcdev = some k) :
      XpAddCases x c lib
        (((({ x with lib := lib } : XpDev).touch k).setQdata (x.place (c.qconf.c2h, i))
          { qhndl := x.lib.dev.refId (c.qconf.c2h, i), xcdev := some k }).setCdev k
            ((x.cdevs k).addDir c.qconf.c2h (x.lib.dev.refId (c.qconf.c2h, i))), 0)
  | own (i : ℕ) (d : QdmaCdev) (h : LibAdded x c i) (hlt : i < x.qmax)
      (hk : (x.qdata (x.place (!c.qconf.c2h, i))).xcdev = Option.none)
      (hcreates : c.create.Creates x.cdevCb i)
      (hd : d.qhndl c.qconf.c2h = x.lib.dev.refId (c.qconf.c2h, i)) :
      XpAddCases x c lib
        ((({ x with lib := lib } : XpDev).newCdev d).setQdata (x.place (c.qconf.c2h, i))
          { qhndl := x.lib.dev.refId (c.qconf.c2h, i), xcdev := some x.next }, 0)
  | failed {x' : XpDev} {rv : ℤ} (i : ℕ) (h : LibAdded x c i) (hlt : i < x.qmax)
      (hk : (x.qdata (x.place (!c.qconf.c2h, i))).xcdev = Option.none)
      (hno : ¬ c.create.Creates x.cdevCb i) (hrv : rv < 0) (hlib : x'.lib = lib)
      (hqmax : x'.qmax = x.qmax) : XpAddCases x c lib (x', rv)

theorem xpQueueAdd_cases (x : XpDev) (c : XpAdd) :
    XpAddCases x c (x.lib.queueAdd c.call c.prep).1 (x.queueAdd c) := by
  have hlib := idQueueAdd_cases x.lib c
  have hadded : ∀ i, x.lib.dev.addPlace c.call = some (c.qconf, i) → PrepOk x.lib c.prep →
      _ → _ → _ → LibAdded x c i := fun i hp hprep hoff hon hout => ⟨hp, hprep, hoff, hon, hout⟩
  unfold XpDev.queueAdd
  simp only
  generalize x.lib.queueAdd c.call c.prep = r at hlib hadded
  obtain ⟨lib, rv⟩ := r
  simp only at hlib hadded ⊢
  cases hlib with
  | none hp hrv hsame =>
      rw [if_pos hrv]
      exact .none hp hrv hsame
  | unprepared i hp hno hrv hoff hon =>
      rw [if_pos hrv]
      exact .unprepared i hp hno hrv hoff hon
  | added i hp hprep hrv hoff hon hout =>
  have h := hadded i hp hprep hoff hon hout
  rw [if_neg (Int.not_lt.mpr hrv), hout]
  simp only
  by_cases hlt : i < x.qmax
  swap
  · -- the entry is not found, and the value is that of the library
    have hget : XpDev.queueGet { x with lib := lib } i c.qconf.c2h false = .error
        ("QID " ++ toString i ++ " too big, " ++ toString x.qmax ++ ".\n") :=
      if_pos (Nat.le_of_not_lt hlt)
    rw [hget]
    exact .outside i h (Nat.le_of_not_lt hlt) hrv
  have hget : ∀ b, XpDev.queueGet { x with lib := lib } i b false = .ok (x.place (b, i)) :=
    fun b => queueGet_of_lt (x := { x with lib := lib }) hlt b
  rw [hget, hget]
  simp only
  cases hk : (x.qdata (x.place (!c.qconf.c2h, i))).xcdev with
  | some k => exact .joined i k h hlt hk
  | none =>
      simp only
      rcases addCdev_cases { x with lib := lib } c (x.place (c.qconf.c2h, i)) i
          (x.lib.dev.refId (c.qconf.c2h, i)) with ⟨hcreates, d, hd, heq⟩ | ⟨hno, hneg, hsame, hqmax⟩
      · rw [heq]
        exact .own i d h hlt hk hcreates hd
      · exact .failed i h hlt hk hno hneg hsame hqmax

/-- The library is as its own call leaves it. -/
theorem xpQueueAdd_lib (x : XpDev) (c : XpAdd) :
    (x.queueAdd c).1.lib = (x.lib.queueAdd c.call c.prep).1 := by
  have hcases := xpQueueAdd_cases x c
  generalize x.queueAdd c = r at hcases
  cases hcases with
  | failed _ _ _ _ _ _ hlib _ => exact hlib
  | _ => rfl

/-- **One or the other**, if the call returns, just when no step behind the search fails. -/
theorem whole_iff (x : XpDev) (c : XpAdd) :
    Whole x c (x.queueAdd c) ↔
      ∀ i, x.lib.dev.addPlace c.call = some (c.qconf, i) → x.AddsWhole c i := by
  have hcases := xpQueueAdd_cases x c
  unfold Whole
  generalize x.queueAdd c = r at hcases
  cases hcases with
  | none hp hrv hsame =>
      refine iff_of_true ⟨id, .inr ⟨hrv, hsame.enabled, rfl, rfl, rfl, rfl⟩⟩ (fun i hi => ?_)
      exact nomatch hp.symm.trans hi
  | unprepared i hp hno hrv hoff hon =>
      refine iff_of_false ?_ (fun h => hno (h i hp).1)
      rintro ⟨-, ⟨h0, -⟩ | ⟨-, hnone⟩⟩
      · exact hrv.ne h0
      · exact not_nothingAdded hoff hon hnone
  | outside i h hge hrv =>
      refine iff_of_false ?_ (fun hall => Nat.not_lt.mpr hge (hall i h.place).2.1)
      rw [h.out]
      rintro ⟨-, ⟨-, hadded⟩ | ⟨hneg, -⟩⟩
      · exact Nat.not_lt.mpr hge hadded.inTable
      · exact absurd hneg (Int.not_lt.mpr hrv)
  | joined i k h hlt hk =>
      rw [h.out]
      by_cases hlive : x.Live k
      · obtain ⟨htidy, hadded⟩ := queueAdded_join (c := c) hlt h.on hlive rfl
        refine iff_of_true ⟨htidy, .inl ⟨rfl, hadded⟩⟩ (fun j hj => ?_)
        rw [h.unique hj]
        refine ⟨h.prep, hlt, ?_⟩
        rw [hk]
        exact hlive
      · -- the entry of the other direction has a pointer to something else
        refine iff_of_false ?_ (fun hall => hlive ?_)
        · rintro ⟨-, ⟨-, -, -, k', hk', hentry, -⟩ | ⟨hneg, -⟩⟩
          · have heq : k = k' := by
              have hself := (congrArg XlnxQdata.xcdev (Function.update_self _ _ _)).symm.trans
                (congrArg XlnxQdata.xcdev hentry)
              exact Option.some.inj hself
            exact hlive (heq ▸ hk')
          · exact absurd hneg (lt_irrefl 0)
        · have hjoin := (hall i h.place).2.2
          rw [hk] at hjoin
          exact hjoin
  | own i d h hlt hk hcreates hd =>
      obtain ⟨htidy, hadded⟩ := queueAdded_new hlt h.on hd rfl
      rw [h.out]
      refine iff_of_true ⟨htidy, .inl ⟨rfl, hadded⟩⟩ (fun j hj => ?_)
      rw [h.unique hj]
      refine ⟨h.prep, hlt, ?_⟩
      rw [hk]
      exact hcreates
  | failed i h hlt hk hno hneg hsame _ =>
      refine iff_of_false ?_ (fun hall => ?_)
      · rintro ⟨-, ⟨h0, -⟩ | ⟨-, hnone⟩⟩
        · exact hneg.ne h0
        · refine not_nothingAdded h.off ?_ hnone
          rw [hsame]
          exact h.on
      · have hmake := (hall i h.place).2.2
        rw [hk] at hmake
        exact hno hmake

/-- **When adding a queue is all or nothing**: for every state and configuration and all answers,
just when there is a device if its mode is enabled, and the library finds no queue or no step behind
the search fails. -/
theorem queue_add_iff (x : XpDev) (c : XpAdd) :
    AllOrNothing x c ↔ ¬ x.lib.dev.AddFaults c.call ∧
      ∀ i, x.lib.dev.addPlace c.call = some (c.qconf, i) → x.AddsWhole c i := by
  unfold AllOrNothing
  rw [xpQueueAdd_lib]
  exact and_congr (idQueueAdd_faults x.lib c.call c.prep) (whole_iff x c)

/-- H2C queue 2, and no memory for a character device; the pointer on the stack holds 7. -/
def addWithoutCdev : XpAdd :=
  { qconf := { qidx := 2 }, create := { allocOk := false, stale := some 7 } }

/-- The front end after that. -/
def halfAdded : XpDev := ((XpDev.probeOne (fourPairs false)).queueAdd addWithoutCdev).1

/-- **A queue that is half added.**  Without memory for a character device: the call fails, but the
queue is enabled, and its entry has what the pointer held.  Then the C2H queue of the pair: the call
returns 0, and its entry gets the same pointer.  And if the table has two entries for each direction
and the device, by now, four queues: the call returns 0 and the queue is enabled, but no entry knows
it. -/
theorem queue_add_half :
    (((XpDev.probeOne (fourPairs false)).queueAdd addWithoutCdev).2 = enomem ∧
      (halfAdded.lib.dev.descq 2).enabled = true ∧
      halfAdded.qdata 2 = { qhndl := 2, xcdev := some 7 } ∧ halfAdded.next = 0 ∧
      ¬ AllOrNothing (XpDev.probeOne (fourPairs false)) addWithoutCdev) ∧
    ((halfAdded.queueAdd { qconf := { qidx := 2, c2h := true } }).2 = 0 ∧
      (halfAdded.queueAdd { qconf := { qidx := 2, c2h := true } }).1.qdata 6 =
        { qhndl := 6, xcdev := some 7 } ∧
      ¬ AllOrNothing halfAdded { qconf := { qidx := 2, c2h := true } }) ∧
    (({ lib := fourPairs false, qmax := 2 } : XpDev).queueAdd { qconf := { qidx := 2 } }).2 = 0 ∧
      ((({ lib := fourPairs false, qmax := 2 } : XpDev).queueAdd
        { qconf := { qidx := 2 } }).1.lib.dev.descq 2).enabled = true ∧
      (({ lib := fourPairs false, qmax := 2 } : XpDev).queueAdd
        { qconf := { qidx := 2 } }).1.qdata 2 = {} ∧
      ¬ AllOrNothing { lib := fourPairs false, qmax := 2 } { qconf := { qidx := 2 } } := by
  have hrv : ((XpDev.probeOne (fourPairs false)).queueAdd addWithoutCdev).2 = enomem := by
    decide +kernel
  have hon : (halfAdded.lib.dev.descq 2).enabled = true := by decide +kernel
  have hjoin : (halfAdded.queueAdd { qconf := { qidx := 2, c2h := true } }).2 = 0 := by
    decide +kernel
  refine ⟨⟨hrv, hon, rfl, rfl, ?_⟩, ⟨hjoin, rfl, ?_⟩, by decide +kernel, by decide +kernel, rfl, ?_⟩
  · rintro ⟨-, -, ⟨h0, -⟩ | ⟨-, hnone⟩⟩
    · exact absurd (hrv.symm.trans h0) (by decide)
    · exact not_nothingAdded (by decide +kernel) hon hnone
  · rintro ⟨-, -, ⟨-, -, -, k, hlive, -⟩ | ⟨hneg, -⟩⟩
    · -- no character device has been made
      exact absurd hlive.1 (Nat.not_lt_zero k)
    · exact absurd (hjoin ▸ hneg) (lt_irrefl 0)
  · rintro ⟨-, -, ⟨-, hadded⟩ | ⟨hneg, -⟩⟩
    · exact absurd hadded.inTable (by decide +kernel)
    · exact absurd hneg (by decide +kernel)

end Qdma
