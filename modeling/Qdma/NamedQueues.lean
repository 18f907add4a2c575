/-
# The queues a command names

What a queue command may do: operate on the queues from its index on, as many as its number says, in
its directions, one after the other up to the first failure.

`queue_cmd_iff` says when it does, whatever the library does: when the last index has 16 bits, or a
queue that is not there ends the command before it comes to another queue than the one that is
meant.
-/
import Qdma.QueueCmds

namespace Qdma

open Sweep

/-! ## The law -/

/-- The directions that the flags ask for, C2H first; H2C if there are none. -/
def askedDirs (attrs : InfoAttrs) : List Bool :=
  let f := BitVec.ofNat 32 ((attrs xnlAttrQflag).getD 0)
  if hasFlag f xnlFQdirC2h then
    if hasFlag f xnlFQdirH2c then [true, false] else [true]
  else [false]

/-- The index of a command, and its number of queues. -/
def askedIdx (attrs : InfoAttrs) : ℕ := (attrs xnlAttrQidx).getD 0

def askedNum (attrs : InfoAttrs) : ℕ := (attrs xnlAttrNumQ).getD 0

/-- **The queues that a command names.** -/
def namedQueues (attrs : InfoAttrs) : List QRef :=
  queuesOf (askedDirs attrs) (List.range' (askedIdx attrs) (askedNum attrs))

/-- There is no such queue. -/
def XpDev.Missing (x : XpDev) (q : QRef) : Prop :=
  x.qmax ≤ q.2 ∨ (x.qdata (x.place q)).qhndl = 0 ∧ (x.qdata (x.place q)).xcdev = none

/-- **A command acts on the queues it names**: on nothing else, by the handles of their entries, up
to the first failure, and on all of them if it comes to its end. -/
structure ActsOn (x : XpDev) (named : List QRef) (r : CmdState × Bool) : Prop where
  order : r.1.touched.map Touched.q <+: named
  handles : ∀ t ∈ r.1.touched, t.qhndl = (x.qdata (x.place t.q)).qhndl
  stops : ∀ t ∈ r.1.touched.dropLast, 0 ≤ t.rv
  all : r.2 = true → r.1.touched.map Touched.q = named ∧ ∀ t ∈ r.1.touched, 0 ≤ t.rv

/-! ## When it does -/

/-- The queues that a command comes to: its index, its number and its loop variable have 16 bits. -/
def comesTo (attrs : InfoAttrs) : List QRef :=
  queuesOf (askedDirs attrs)
    ((List.range' (askedIdx attrs % 2 ^ 16) (askedNum attrs % 2 ^ 16)).map (· % 2 ^ 16))

/-- **The bits suffice, or the command ends in time**: at a queue that is not there, before or where
it leaves the queues it names. -/
def CmdFits (attrs : InfoAttrs) (x : XpDev) : Prop :=
  ∀ r, qconfGet attrs = .ok r → ∀ n, attrs xnlAttrNumQ = some n →
    n = 0 ∨ (n < 2 ^ 16 ∧ askedIdx attrs + n ≤ 2 ^ 16) ∨
      ∃ q ∈ (comesTo attrs).take (agree (comesTo attrs) (namedQueues attrs) + 1), x.Missing q

/-! ## Visits -/

/-- What a visit does: a queue that is not there is refused, and the entries of the others stay as
they are. -/
structure VisitSpec (visit : CmdState → QRef → CmdState × Fate) : Prop where
  missing : ∀ s q, s.dev.Missing q → (visit s q).2 = .refused ∧
    (visit s q).1.touched = s.touched ∧ (visit s q).1.dev = s.dev
  there : ∀ s q, ¬ s.dev.Missing q → ∃ rv, (visit s q).2 = fateOf rv ∧
    (visit s q).1.touched =
      s.touched ++ [{ q := q, qhndl := (s.dev.qdata (s.dev.place q)).qhndl, rv := rv }]
  qmax : ∀ s q, (visit s q).1.dev.qmax = s.dev.qmax
  entries : ∀ s q n, n ≠ s.dev.place q → (visit s q).1.dev.qdata n = s.dev.qdata n

theorem queueGet_missing {x : XpDev} {q : QRef} (h : x.Missing q) :
    ∃ e, x.queueGet q.2 q.1 true = .error e := by
  unfold XpDev.queueGet
  by_cases hq : q.2 ≥ x.qmax
  · rw [if_pos hq]
    exact ⟨_, rfl⟩
  · obtain ⟨hzero, hnone⟩ := h.resolve_left hq
    replace hzero : (x.qdata (if q.1 then q.2 + x.qmax else q.2)).qhndl = 0 := hzero
    replace hnone : (x.qdata (if q.1 then q.2 + x.qmax else q.2)).xcdev = none := hnone
    simp only [if_neg hq, hzero, hnone]
    exact ⟨_, rfl⟩

theorem queueGet_there {x : XpDev} {q : QRef} (h : ¬ x.Missing q) :
    x.queueGet q.2 q.1 true = .ok (x.place q) := by
  obtain ⟨hlt, hentry⟩ := not_or.mp h
  unfold XpDev.queueGet
  rw [if_neg hlt]
  refine if_neg (fun hempty => hentry ?_)
  rw [Bool.true_and, Bool.and_eq_true, beq_iff_eq, Option.isNone_iff_eq_none] at hempty
  exact hempty

theorem xnlRcvCheckQidx_missing {x : XpDev} {qconf : StartConf}
    (h : x.Missing (qconf.c2h, qconf.qidx)) : ∃ e, xnlRcvCheckQidx x qconf = .error e := by
  obtain ⟨e, he⟩ := queueGet_missing h
  unfold xnlRcvCheckQidx
  rw [he]
  exact ⟨_, rfl⟩

theorem xnlRcvCheckQidx_there {x : XpDev} {qconf : StartConf}
    (h : ¬ x.Missing (qconf.c2h, qconf.qidx)) :
    xnlRcvCheckQidx x qconf = .ok (x.place (qconf.c2h, qconf.qidx)) := by
  unfold xnlRcvCheckQidx
  rw [queueGet_there h]

/-- A visit that checks the index and then only calls the library. -/
theorem checkedQ_spec {visit : CmdState → QRef → CmdState × Fate} (qconf : QRef → StartConf)
    (run : CmdState → QRef → ℕ → IdDev × ℤ)
    (hconf : ∀ q, ((qconf q).c2h, (qconf q).qidx) = q)
    (hvisit : ∀ s q, visit s q = match xnlRcvCheckQidx s.dev (qconf q) with
      | .error ebuf => ({ s with sent := s.sent ++ [.text ebuf] }, .refused)
      | .ok n => s.record (qconf q) { s.dev with lib := (run s q n).1 } (s.dev.qdata n).qhndl
          (run s q n).2) : VisitSpec visit := by
  refine ⟨fun s q h => ?_, fun s q h => ?_, fun s q => ?_, fun s q n hn => ?_⟩
  · rw [← hconf q] at h
    obtain ⟨e, he⟩ := xnlRcvCheckQidx_missing h
    rw [hvisit, he]
    exact ⟨rfl, rfl, rfl⟩
  · rw [← hconf q] at h
    rw [hvisit, xnlRcvCheckQidx_there h, hconf]
    refine ⟨_, rfl, ?_⟩
    unfold CmdState.record
    rw [hconf]
  · rw [hvisit]
    cases xnlRcvCheckQidx s.dev (qconf q) <;> rfl
  · rw [hvisit]
    cases xnlRcvCheckQidx s.dev (qconf q) <;> rfl

theorem startQ_spec (lib : QueueLib) (qconf : StartConf) :
    VisitSpec (visitQ (startQ lib) qconf) :=
  checkedQ_spec (fun q => { qconf with c2h := q.1, qidx := q.2 })
    (fun s q n =>
      let r := lib.reconfig s.dev.lib (s.dev.qdata n).qhndl { qconf with c2h := q.1, qidx := q.2 }
      if r.2 < 0 then r else lib.start r.1 (s.dev.qdata n).qhndl)
    (fun _ => rfl) (fun _ _ => rfl)

theorem stopQ_spec (lib : QueueLib) (qconf : StartConf) :
    VisitSpec (visitQ (stopQ lib) qconf) :=
  checkedQ_spec (fun q => { qconf with c2h := q.1, qidx := q.2 })
    (fun s _ n => lib.stop s.dev.lib (s.dev.qdata n).qhndl) (fun _ => rfl) (fun _ _ => rfl)

/-- The character device has no part in the entries. -/
theorem dropDir_entries (x : XpDev) (xcdev : Option ℕ) (c2h : Bool) :
    (x.dropDir xcdev c2h).qmax = x.qmax ∧ (x.dropDir xcdev c2h).qdata = x.qdata := by
  unfold XpDev.dropDir
  cases xcdev with
  | none => exact ⟨rfl, rfl⟩
  | some k =>
      simp only
      split_ifs <;> exact ⟨rfl, rfl⟩

theorem delQ_spec (lib : QueueLib) (qconf : StartConf) :
    VisitSpec (visitQ (delQ lib) qconf) := by
  refine ⟨fun s q h => ?_, fun s q h => ?_, fun s q => ?_, fun s q n hn => ?_⟩
  · obtain ⟨e, he⟩ := queueGet_missing h
    unfold visitQ delQ
    rw [he]
    exact ⟨rfl, rfl, rfl⟩
  · unfold visitQ delQ
    rw [queueGet_there h]
    exact ⟨_, rfl, rfl⟩
  · unfold visitQ delQ
    cases hget : s.dev.queueGet q.2 q.1 true with
    | error e => rfl
    | ok n => exact (dropDir_entries s.dev _ _).1
  · unfold visitQ delQ
    cases hget : s.dev.queueGet q.2 q.1 true with
    | error e => rfl
    | ok m =>
        obtain ⟨-, rfl, -⟩ := queueGet_ok hget
        exact (Function.update_of_ne hn _ _).trans (congrFun (dropDir_entries s.dev _ _).2 n)

/-! ## Sweeps over queues -/

/-- The entries of some queues are what they were in `x`. -/
structure EntriesOf (x : XpDev) (l : List QRef) (s : CmdState) : Prop where
  qmax : s.dev.qmax = x.qmax
  entries : ∀ q ∈ l, q.2 < x.qmax → s.dev.qdata (x.place q) = x.qdata (x.place q)

theorem EntriesOf.missing_iff {x : XpDev} {l : List QRef} {s : CmdState} (h : EntriesOf x l s)
    {q : QRef} (hq : q ∈ l) : s.dev.Missing q ↔ x.Missing q := by
  unfold XpDev.Missing
  rw [h.qmax, place_of_qmax h.qmax]
  rcases Nat.lt_or_ge q.2 x.qmax with hlt | hge
  · rw [h.entries q hq hlt]
  · exact iff_of_true (.inl hge) (.inl hge)

section Sweeps

variable {x : XpDev} {visit : CmdState → QRef → CmdState × Fate}

/-- **A visit keeps the entries of the other queues.** -/
theorem VisitSpec.keeps (hspec : VisitSpec visit) {l : List QRef} {s : CmdState} {q : QRef}
    (hq : q ∉ l) (h : EntriesOf x l s) : EntriesOf x l (visit s q).1 := by
  refine ⟨(hspec.qmax s q).trans h.qmax, fun q' hq' hlt => ?_⟩
  rcases Nat.lt_or_ge q.2 x.qmax with hqlt | hge
  · have hne : x.place q' ≠ x.place q := fun heq => hq (place_inj hlt hqlt heq ▸ hq')
    rw [hspec.entries s q _ (place_of_qmax h.qmax q ▸ hne)]
    exact h.entries q' hq' hlt
  · have hmissing : s.dev.Missing q := .inl (h.qmax.symm ▸ hge)
    rw [(hspec.missing s q hmissing).2.2]
    exact h.entries q' hq' hlt

/-- **What a sweep records.** -/
theorem sweep_records (hspec : VisitSpec visit) {l : List QRef} (hl : l.Nodup) {s : CmdState}
    (h : EntriesOf x l s) :
    ∃ ts, (sweep visit s l).state.touched = s.touched ++ ts ∧
      ts.map Touched.q = (sweep visit s l).done ∧
      (∀ t ∈ ts, t.qhndl = (x.qdata (x.place t.q)).qhndl) ∧
      (∀ t ∈ ts.dropLast, 0 ≤ t.rv) ∧
      ((sweep visit s l).stopped = false → ∀ t ∈ ts, 0 ≤ t.rv) := by
  induction l generalizing s with
  | nil =>
      exact ⟨[], (List.append_nil _).symm, rfl, fun t ht => absurd ht List.not_mem_nil,
        fun t ht => absurd ht List.not_mem_nil, fun _ t ht => absurd ht List.not_mem_nil⟩
  | cons q l ih =>
      obtain ⟨hnot, hl⟩ := List.nodup_cons.mp hl
      by_cases hmissing : s.dev.Missing q
      · obtain ⟨hfate, htouched, -⟩ := hspec.missing s q hmissing
        rw [sweep_refused hfate]
        exact ⟨[], htouched.trans (List.append_nil _).symm, rfl,
          fun t ht => absurd ht List.not_mem_nil, fun t ht => absurd ht List.not_mem_nil,
          fun _ t ht => absurd ht List.not_mem_nil⟩
      · have hlt : q.2 < x.qmax := by
          rw [← h.qmax]
          exact Nat.lt_of_not_ge (not_or.mp hmissing).1
        obtain ⟨rv, hfate, htouched⟩ := hspec.there s q hmissing
        rw [place_of_qmax h.qmax, h.entries q List.mem_cons_self hlt] at htouched
        by_cases hneg : rv < 0
        · have hfailed : (visit s q).2 = .failed := hfate.trans (if_pos hneg)
          rw [sweep_failed hfailed]
          exact ⟨_, htouched, rfl, List.forall_mem_singleton.mpr rfl,
            fun t ht => absurd ht List.not_mem_nil, fun hstop => Bool.noConfusion hstop⟩
        · have hpassed : (visit s q).2 = .passed := hfate.trans (if_neg hneg)
          have htail : EntriesOf x l s :=
            ⟨h.qmax, fun q' hq' => h.entries q' (List.mem_cons_of_mem _ hq')⟩
          obtain ⟨ts, htrace, hdone, hhandles, hstops, hall⟩ := ih hl (hspec.keeps hnot htail)
          rw [sweep_passed hpassed]
          refine ⟨{ q := q, qhndl := (x.qdata (x.place q)).qhndl, rv := rv } :: ts, ?_, ?_, ?_, ?_,
            ?_⟩
          · show (sweep visit (visit s q).1 l).state.touched = _
            rw [htrace, htouched, List.append_assoc]
            rfl
          · rw [List.map_cons, hdone]
          · exact List.forall_mem_cons.mpr ⟨rfl, hhandles⟩
          · cases ts with
            | nil => exact fun t ht => absurd ht List.not_mem_nil
            | cons t' ts =>
                rw [List.dropLast_cons_cons]
                exact List.forall_mem_cons.mpr ⟨Int.not_lt.mp hneg, hstops⟩
          · intro hstop
            exact List.forall_mem_cons.mpr ⟨Int.not_lt.mp hneg, hall hstop⟩

/-- **A queue that is not there is refused**, whatever has been visited before. -/
theorem sweep_meets (hspec : VisitSpec visit) {pre post : List QRef} {q : QRef}
    (hl : (pre ++ q :: post).Nodup) {s : CmdState} (h : EntriesOf x (pre ++ q :: post) s)
    (hq : x.Missing q) : (visit (sweep visit s pre).state q).2 = .refused := by
  have hnot : ∀ q' ∈ pre, q' ∉ [q] := by
    rintro q' hq' hmem
    rw [List.mem_singleton.mp hmem] at hq'
    exact (List.nodup_append.mp hl).2.2 q hq' q List.mem_cons_self rfl
  have hone : EntriesOf x [q] s := ⟨h.qmax, fun q' hq' => h.entries q'
    (List.mem_append_right _ (List.mem_singleton.mp hq' ▸ List.mem_cons_self))⟩
  have hkept := sweep_keeps (fun s q' hq' => hspec.keeps (hnot q' hq')) hone
  exact (hspec.missing _ q ((hkept.missing_iff List.mem_cons_self).mpr hq)).1

/-- Where all are there and nothing fails, a sweep comes to its end. -/
theorem sweep_passes (hspec : VisitSpec visit)
    (hgood : ∀ s q, ¬ s.dev.Missing q → (visit s q).2 = .passed) {l : List QRef} (hl : l.Nodup)
    {s : CmdState} (h : EntriesOf x l s) (hthere : ∀ q ∈ l, ¬ x.Missing q) :
    (sweep visit s l).stopped = false := by
  induction l generalizing s with
  | nil => rfl
  | cons q l ih =>
      obtain ⟨hnot, hl⟩ := List.nodup_cons.mp hl
      have hq := mt (h.missing_iff List.mem_cons_self).mp (hthere q List.mem_cons_self)
      have htail : EntriesOf x l s :=
        ⟨h.qmax, fun q' hq' => h.entries q' (List.mem_cons_of_mem _ hq')⟩
      rw [sweep_passed (hgood s q hq)]
      exact ih hl (hspec.keeps hnot htail) (fun q' hq' => hthere q' (List.mem_cons_of_mem _ hq'))

end Sweeps

/-! ## The lists -/

/-- The default mode leaves the directions, and the default direction is one. -/
theorem dirsOf_flags (f : BitVec 32) :
    let g := if !hasFlag f xnlFQmodeSt && !hasFlag f xnlFQmodeMm then f ||| xnlFQmodeMm else f
    let g' := if !hasFlag g xnlFQdirH2c && !hasFlag g xnlFQdirC2h then g ||| xnlFQdirH2c else g
    dirsOf (decide (g' &&& xnlFQdirBoth = xnlFQdirBoth)) (hasFlag g' xnlFQdirC2h) =
      if hasFlag f xnlFQdirC2h then
        if hasFlag f xnlFQdirH2c then [true, false] else [true]
      else [false] := by
  intro g g'
  have h2 : g.getLsbD 2 = f.getLsbD 2 := dflt_getLsbD rfl
  have h3 : g.getLsbD 3 = f.getLsbD 3 := dflt_getLsbD rfl
  have hc2h : hasFlag g' xnlFQdirC2h = f.getLsbD 3 :=
    (hasFlag_of rfl (by decide)).trans ((dflt_getLsbD rfl).trans h3)
  have hboth : decide (g' &&& xnlFQdirBoth = xnlFQdirBoth) = (f.getLsbD 2 && f.getLsbD 3) :=
    dirs_dflt h2 h3
  have hf2 : hasFlag f xnlFQdirH2c = f.getLsbD 2 := hasFlag_of rfl (by decide)
  have hf3 : hasFlag f xnlFQdirC2h = f.getLsbD 3 := hasFlag_of rfl (by decide)
  rw [hboth, hc2h, hf2, hf3]
  cases f.getLsbD 3 <;> cases f.getLsbD 2 <;> rfl

/-- The directions of an iteration are those that the flags ask for. -/
theorem qconfGet_dirs {attrs : InfoAttrs} {qconf : StartConf} {isQp : Bool}
    (h : qconfGet attrs = .ok (qconf, isQp)) :
    dirsOf isQp qconf.c2h = askedDirs attrs ∧ qconf.qidx = askedIdx attrs % 2 ^ 16 := by
  unfold qconfGet at h
  unfold askedDirs askedIdx
  cases hf : attrs xnlAttrQflag with
  | none =>
      rw [hf] at h
      exact nomatch h
  | some v =>
      rw [hf] at h
      simp only [Option.getD_some] at h ⊢
      by_cases hmode : hasFlag (BitVec.ofNat 32 v) xnlFQmodeSt = true ∧
          hasFlag (BitVec.ofNat 32 v) xnlFQmodeMm = true
      · rw [if_pos hmode] at h
        exact nomatch h
      rw [if_neg hmode] at h
      cases hq : attrs xnlAttrQidx with
      | none =>
          rw [hq] at h
          exact nomatch h
      | some q =>
          rw [hq] at h
          obtain ⟨rfl, rfl⟩ := Prod.mk.inj (Except.ok.inj h)
          refine ⟨dirsOf_flags _, ?_⟩
          show (if q % 2 ^ 16 = xnlQidxInvalid then 0xFFFF else q % 2 ^ 16) = q % 2 ^ 16
          split_ifs with hinv
          · exact hinv.symm
          · rfl

theorem askedDirs_nodup (attrs : InfoAttrs) : (askedDirs attrs).Nodup := by
  unfold askedDirs
  simp only
  split_ifs <;> decide

theorem mem_queuesOf {dirs : List Bool} {idxs : List ℕ} {q : QRef} :
    q ∈ queuesOf dirs idxs ↔ q.1 ∈ dirs ∧ q.2 ∈ idxs := by
  unfold queuesOf
  rw [List.mem_flatMap]
  constructor
  · rintro ⟨i, hi, hmem⟩
    obtain ⟨c2h, hdir, rfl⟩ := List.mem_map.mp hmem
    exact ⟨hdir, hi⟩
  · rintro ⟨hdir, hi⟩
    exact ⟨q.2, hi, List.mem_map.mpr ⟨q.1, hdir, rfl⟩⟩

theorem queuesOf_nodup {dirs : List Bool} {idxs : List ℕ} (hdirs : dirs.Nodup)
    (hidxs : idxs.Nodup) : (queuesOf dirs idxs).Nodup := by
  unfold queuesOf
  rw [List.nodup_flatMap]
  refine ⟨fun i _ => hdirs.map (fun a b hab => (Prod.mk.inj hab).1), ?_⟩
  refine hidxs.imp (fun {i j} hij => ?_)
  rintro q hqi hqj
  obtain ⟨_, -, rfl⟩ := List.mem_map.mp hqi
  obtain ⟨_, -, heq⟩ := List.mem_map.mp hqj
  exact hij (Prod.mk.inj heq).2.symm

/-- A command comes to no queue twice. -/
theorem comesTo_nodup (attrs : InfoAttrs) : (comesTo attrs).Nodup := by
  refine queuesOf_nodup (askedDirs_nodup attrs)
    (List.Nodup.map_on (fun i hi j hj hij => ?_) List.nodup_range')
  rw [List.mem_range'_1] at hi hj
  have hmod := Nat.mod_lt (askedNum attrs) (show 0 < 2 ^ 16 by decide)
  omega

/-- **It comes to the queues that it names** just if the indices have 16 bits. -/
theorem comesTo_eq_named {attrs : InfoAttrs} :
    comesTo attrs = namedQueues attrs ↔
      askedNum attrs = 0 ∨
        (askedNum attrs < 2 ^ 16 ∧ askedIdx attrs + askedNum attrs ≤ 2 ^ 16) := by
  constructor
  · intro h
    by_contra hnot
    obtain ⟨hpos, hover⟩ := not_or.mp hnot
    -- the last one that is named
    obtain ⟨c2h, hdir⟩ : ∃ c2h, c2h ∈ askedDirs attrs := by
      unfold askedDirs
      simp only
      split_ifs
      · exact ⟨true, List.mem_cons_self⟩
      · exact ⟨true, List.mem_cons_self⟩
      · exact ⟨false, List.mem_cons_self⟩
    have hlast : (c2h, askedIdx attrs + askedNum attrs - 1) ∈ namedQueues attrs :=
      mem_queuesOf.mpr ⟨hdir, List.mem_range'_1.mpr (by simp only; omega)⟩
    rw [← h] at hlast
    obtain ⟨i, hmem, hi⟩ := List.mem_map.mp (mem_queuesOf.mp hlast).2
    rw [List.mem_range'_1] at hmem
    simp only at hi
    omega
  · rintro (hzero | ⟨hnum, hfit⟩)
    · unfold comesTo namedQueues
      rw [hzero]
      rfl
    · rcases Nat.eq_zero_or_pos (askedNum attrs) with hzero | hpos
      · unfold comesTo namedQueues
        rw [hzero]
        rfl
      · unfold comesTo namedQueues
        rw [Nat.mod_eq_of_lt hnum, Nat.mod_eq_of_lt (show askedIdx attrs < 2 ^ 16 by omega)]
        have hmap : (List.range' (askedIdx attrs) (askedNum attrs)).map (· % 2 ^ 16) =
            (List.range' (askedIdx attrs) (askedNum attrs)).map id := by
          refine List.map_congr_left (fun i hi => Nat.mod_eq_of_lt ?_)
          have hlt := (List.mem_range'_1.mp hi).2
          omega
        rw [hmap, List.map_id]

/-! ## The commands -/

theorem loopAndSend_touched (op : CmdState → StartConf → CmdState × Fate) (word : String)
    (numQ : ℕ) (isQp : Bool) (qconf : StartConf) (x : XpDev) :
    let r := queueLoop (atIdx op) isQp qconf.c2h numQ qconf.qidx { dev := x } qconf
    (loopAndSend op word numQ isQp qconf x).1.touched = r.1.touched ∧
      ((loopAndSend op word numQ isQp qconf x).2 = true ↔ r.2 = .passed) := by
  unfold loopAndSend
  obtain ⟨s, fate⟩ := queueLoop (atIdx op) isQp qconf.c2h numQ qconf.qidx { dev := x } qconf
  cases fate with
  | passed => exact ⟨rfl, iff_of_true rfl rfl⟩
  | refused => exact ⟨rfl, iff_of_false (fun h => nomatch h) (fun h => nomatch h)⟩
  | failed => exact ⟨rfl, iff_of_false (fun h => nomatch h) (fun h => nomatch h)⟩

/-- A command that has recorded a sweep acts on what the sweep covers. -/
theorem actsOn_iff_covers {x : XpDev} {named : List QRef} {r : CmdState × Bool}
    {res : Result CmdState QRef} (hflag : r.2 = true ↔ res.stopped = false)
    (hdone : r.1.touched.map Touched.q = res.done)
    (hhandles : ∀ t ∈ r.1.touched, t.qhndl = (x.qdata (x.place t.q)).qhndl)
    (hstops : ∀ t ∈ r.1.touched.dropLast, 0 ≤ t.rv)
    (hall : res.stopped = false → ∀ t ∈ r.1.touched, 0 ≤ t.rv) :
    ActsOn x named r ↔ res.Covers named := by
  constructor
  · intro h
    exact ⟨hdone ▸ h.order, fun hstop => hdone ▸ (h.all (hflag.mpr hstop)).1⟩
  · intro h
    exact ⟨hdone.symm ▸ h.order, hhandles, hstops,
      fun hend => ⟨hdone.trans (h.all (hflag.mp hend)), hall (hflag.mp hend)⟩⟩

/-- What all have in common. -/
theorem queueCmd_actsOn_iff {op : CmdState → StartConf → CmdState × Fate}
    (hspec : ∀ qconf, VisitSpec (visitQ op qconf)) (word : String) (noNumQ : ℕ → List Sent)
    {extract : InfoAttrs → StartConf → StartConf}
    (hextract : ∀ attrs qconf, (extract attrs qconf).c2h = qconf.c2h ∧
      (extract attrs qconf).qidx = qconf.qidx) (attrs : InfoAttrs) (x : XpDev) :
    ActsOn x (namedQueues attrs) (queueCmd op word noNumQ extract attrs x) ↔
      ∀ qconf isQp, qconfGet attrs = .ok (qconf, isQp) → ∀ n, attrs xnlAttrNumQ = some n →
        (sweep (visitQ op (extract attrs qconf)) { dev := x } (comesTo attrs)).Covers
          (namedQueues attrs) := by
  have hrejected : ∀ sent, ActsOn x (namedQueues attrs) ({ dev := x, sent := sent }, false) :=
    fun sent => ⟨List.nil_prefix, fun t ht => absurd ht List.not_mem_nil,
      fun t ht => absurd ht List.not_mem_nil, fun h => Bool.noConfusion h⟩
  unfold queueCmd
  cases hget : qconfGet attrs with
  | error e => exact iff_of_true (hrejected _) (fun _ _ h => nomatch h)
  | ok r =>
      obtain ⟨qconf, isQp⟩ := r
      simp only
      cases hnum : attrs xnlAttrNumQ with
      | none => exact iff_of_true (hrejected _) (fun _ _ _ _ h => nomatch h)
      | some n =>
          have hone : (∀ qconf' isQp', (.ok (qconf, isQp) : Except (ℤ × String) _) =
              .ok (qconf', isQp') → ∀ n', some n = some n' →
                (sweep (visitQ op (extract attrs qconf')) { dev := x } (comesTo attrs)).Covers
                  (namedQueues attrs)) ↔
              (sweep (visitQ op (extract attrs qconf)) { dev := x } (comesTo attrs)).Covers
                (namedQueues attrs) := by
            refine ⟨fun h => h qconf isQp rfl n rfl, fun h qconf' isQp' heq n' _ => ?_⟩
            obtain ⟨rfl, rfl⟩ := Prod.mk.inj (Except.ok.inj heq)
            exact h
          rw [hone]
          obtain ⟨hdirs, hidx⟩ := qconfGet_dirs hget
          obtain ⟨hc2h, hqidx⟩ := hextract attrs qconf
          have hcomes : comesTo attrs = queuesOf (dirsOf isQp (extract attrs qconf).c2h)
              ((List.range' (extract attrs qconf).qidx (n % 2 ^ 16)).map (· % 2 ^ 16)) := by
            unfold comesTo askedNum
            rw [hc2h, hqidx, hdirs, hidx, hnum]
            rfl
          obtain ⟨hstate, hpassed⟩ := queueLoop_eq_sweep op isQp (extract attrs qconf).c2h
            (n % 2 ^ 16) (extract attrs qconf).qidx { dev := x } (extract attrs qconf)
          rw [← hcomes] at hstate hpassed
          obtain ⟨htouched, hflag⟩ := loopAndSend_touched op word (n % 2 ^ 16) isQp
            (extract attrs qconf) x
          obtain ⟨ts, htrace, hdone, hhandles, hstops, hall⟩ :=
            @sweep_records x _ (hspec (extract attrs qconf)) _ (comesTo_nodup attrs) { dev := x }
              ⟨rfl, fun _ _ _ => rfl⟩
          have hts : (loopAndSend op word (n % 2 ^ 16) isQp (extract attrs qconf) x).1.touched =
              ts := htouched.trans ((congrArg CmdState.touched hstate).trans htrace)
          refine actsOn_iff_covers (hflag.trans hpassed) ?_ ?_ ?_ ?_
          · exact (congrArg (List.map Touched.q) hts).trans hdone
          · exact hts.symm ▸ hhandles
          · exact hts.symm ▸ hstops
          · exact fun hstop => hts.symm ▸ hall hstop

/-- A library in which nothing fails. -/
def goodLib : QueueLib where
  reconfig s _ _ := (s, 0)
  start s _ := (s, 0)
  stop s _ := (s, 0)
  remove s _ := (s, 0)

/-- **With the library left open**: the bits suffice, or a missing queue ends the command. -/
theorem queueCmd_fits_iff {op : QueueLib → CmdState → StartConf → CmdState × Fate}
    (hspec : ∀ lib qconf, VisitSpec (visitQ (op lib) qconf))
    (hgood : ∀ qconf s q, ¬ s.dev.Missing q → (visitQ (op goodLib) qconf s q).2 = .passed)
    (word : String) (noNumQ : ℕ → List Sent) {extract : InfoAttrs → StartConf → StartConf}
    (hextract : ∀ attrs qconf, (extract attrs qconf).c2h = qconf.c2h ∧
      (extract attrs qconf).qidx = qconf.qidx) (attrs : InfoAttrs) (x : XpDev) :
    (∀ lib, ActsOn x (namedQueues attrs) (queueCmd (op lib) word noNumQ extract attrs x)) ↔
      CmdFits attrs x := by
  have hnodup := comesTo_nodup attrs
  constructor
  · rintro h ⟨qconf, isQp⟩ hget n hnum
    by_contra hnot
    obtain ⟨hzero, hnot⟩ := not_or.mp hnot
    obtain ⟨hbits, hthere⟩ := not_or.mp hnot
    have hasked : askedNum attrs = n := by
      unfold askedNum
      rw [hnum]
      rfl
    have hne : comesTo attrs ≠ namedQueues attrs := fun heq => by
      rcases comesTo_eq_named.mp heq with hz | hb
      · exact hzero (hasked ▸ hz)
      · exact hbits (hasked ▸ hb)
    have hcovers := (queueCmd_actsOn_iff (hspec goodLib) word noNumQ hextract attrs x).mp
      (h goodLib) qconf isQp hget n hnum
    refine not_covers hne (@sweep_passes x _ (hspec goodLib _) (hgood _) _ ?_ _ ?_ ?_) hcovers
    · exact hnodup.sublist (List.take_sublist _ _)
    · exact ⟨rfl, fun _ _ _ => rfl⟩
    · exact fun q hq hmissing => hthere ⟨q, hq, hmissing⟩
  · intro hfits lib
    rw [queueCmd_actsOn_iff (hspec lib) word noNumQ hextract attrs x]
    intro qconf isQp hget n hnum
    have hasked : askedNum attrs = n := by
      unfold askedNum
      rw [hnum]
      rfl
    have hsame := @comesTo_eq_named attrs
    rw [hasked] at hsame
    rcases hfits _ hget n hnum with hzero | hbits | hmissing
    · rw [hsame.mpr (.inl hzero)]
      exact covers_self _ _
    · rw [hsame.mpr (.inr hbits)]
      exact covers_self _ _
    · obtain ⟨pre, q, post, hsplit, hpre, hq⟩ := exists_before hmissing
      rw [hsplit] at hnodup ⊢
      refine covers_of_refused hpre (fun _ => ?_)
      exact sweep_meets (hspec lib _) hnodup ⟨rfl, fun _ _ _ => rfl⟩ hq

theorem xnlExtractExtraConfigAttr_queue (attrs : InfoAttrs) (qconf : StartConf) :
    (xnlExtractExtraConfigAttr attrs qconf).c2h = qconf.c2h ∧
      (xnlExtractExtraConfigAttr attrs qconf).qidx = qconf.qidx := ⟨rfl, rfl⟩

/-- **When a queue command acts on the queues it names**, whatever the library does. -/
theorem queue_cmd_iff (cmd : QueueCmd) (attrs : InfoAttrs) (x : XpDev) :
    (∀ lib, ActsOn x (namedQueues attrs) (cmd.run lib attrs x)) ↔ CmdFits attrs x := by
  cases cmd with
  | start =>
      simp only [QueueCmd.run, xnlQStart]
      refine queueCmd_fits_iff startQ_spec (fun qconf s q h => ?_) _ _
        xnlExtractExtraConfigAttr_queue attrs x
      have he := @xnlRcvCheckQidx_there _ { qconf with c2h := q.1, qidx := q.2 } h
      unfold visitQ startQ
      rw [he]
      rfl
  | stop =>
      simp only [QueueCmd.run, xnlQStop]
      refine queueCmd_fits_iff stopQ_spec (fun qconf s q h => ?_) _ _
        (fun _ _ => ⟨rfl, rfl⟩) attrs x
      have he := @xnlRcvCheckQidx_there _ { qconf with c2h := q.1, qidx := q.2 } h
      unfold visitQ stopQ
      rw [he]
      rfl
  | del =>
      simp only [QueueCmd.run, xnlQDel]
      refine queueCmd_fits_iff delQ_spec (fun qconf s q h => ?_) _ _
        (fun _ _ => ⟨rfl, rfl⟩) attrs x
      unfold visitQ delQ
      rw [queueGet_there h]
      simp only
      split_ifs <;> rfl

/-- A device with H2C queue 3. -/
def queueThree : XpDev := ((XpDev.probeOne (fourPairs false)).queueAdd { qconf := { qidx := 3 } }).1

/-- The attributes of a command for `n` H2C queues from `idx` on. -/
def h2cAttrs (idx n : ℕ) : InfoAttrs := fun t =>
  if t = xnlAttrQflag then some xnlFQdirH2c.toNat
  else if t = xnlAttrQidx then some idx
  else if t = xnlAttrNumQ then some n
  else none

/-- The library, where every context is cleared. -/
def stopLib : QueueLib :=
  qdmaLib
    (fun _ =>
      { csr := none, alloc := { desc := true, wrb := true, sdesc := true, fill := fun _ => .noMem }
        irq := none, ctx := .ok, ctxCleared := true })
    (fun _ => true)

/-- Queue 65539 is to be stopped, which there is not, and queue 3 is; of 65537 queues one is stopped
and the others are not looked for. -/
theorem queue_cmd_other :
    ((QueueCmd.stop.run stopLib (h2cAttrs 65539 1) queueThree).1.touched.map
        fun t => (t.q, t.rv)) = [((false, 3), 0)] ∧
      (QueueCmd.stop.run stopLib (h2cAttrs 65539 1) queueThree).2 = true ∧
      ¬ ActsOn queueThree (namedQueues (h2cAttrs 65539 1))
        (QueueCmd.stop.run stopLib (h2cAttrs 65539 1) queueThree) ∧
      ((QueueCmd.stop.run stopLib (h2cAttrs 3 65537) queueThree).1.touched.map
        fun t => (t.q, t.rv)) = [((false, 3), 0)] ∧
      (QueueCmd.stop.run stopLib (h2cAttrs 3 65537) queueThree).2 = true ∧
      ¬ ActsOn queueThree (namedQueues (h2cAttrs 3 65537))
        (QueueCmd.stop.run stopLib (h2cAttrs 3 65537) queueThree) := by
  have hone : ((QueueCmd.stop.run stopLib (h2cAttrs 65539 1) queueThree).1.touched.map
      fun t => (t.q, t.rv)) = [((false, 3), 0)] := by decide +kernel
  have hall : ((QueueCmd.stop.run stopLib (h2cAttrs 3 65537) queueThree).1.touched.map
      fun t => (t.q, t.rv)) = [((false, 3), 0)] := by decide +kernel
  have hend : (QueueCmd.stop.run stopLib (h2cAttrs 3 65537) queueThree).2 = true := by
    decide +kernel
  refine ⟨hone, by decide +kernel, fun h => ?_, hall, hend, fun h => ?_⟩
  · have hmap : (QueueCmd.stop.run stopLib (h2cAttrs 65539 1) queueThree).1.touched.map Touched.q =
        [(false, 3)] := by
      have hfst := congrArg (List.map Prod.fst) hone
      rwa [List.map_map] at hfst
    have hsub := h.order.subset
    rw [hmap] at hsub
    have hmem := (mem_queuesOf.mp (hsub List.mem_cons_self)).2
    exact absurd hmem (by decide)
  · have hmap : (QueueCmd.stop.run stopLib (h2cAttrs 3 65537) queueThree).1.touched.map Touched.q =
        [(false, 3)] := by
      have hfst := congrArg (List.map Prod.fst) hall
      rwa [List.map_map] at hfst
    have hnamed := (h.all hend).1
    have hmem : ((false, 4) : QRef) ∈ namedQueues (h2cAttrs 3 65537) :=
      mem_queuesOf.mpr ⟨by decide, List.mem_range'_1.mpr (by decide)⟩
    rw [← hnamed, hmap] at hmem
    exact absurd hmem (by decide)

end Qdma
