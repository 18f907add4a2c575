/-
# Inducing errors

`q err` of a build with `ERR_DEBUG`: `read_qparm` takes a list of names and values behind the queue,
`xnl_send_cmd` sends the bits of both, and `xnl_err_induce` has the driver set them.
`induced_errs_iff` says for which lines the errors that change are the named ones.
-/
import Qdma.ErrNames
import Qdma.IndexOpts

namespace Qdma

/-! ## The tool -/

/-- How `parse_cmd` of this build ends before its end: as in the other, or by comparing a word with
the entry of `qdma_err_str` that is `NULL`. -/
inductive ErrStop where
  | parse (s : ParseStop)
  | nullName

/-- A part of `parse_cmd` of this build. -/
abbrev ErrParse (α : Type) := Except ErrStop α

/-- A part that is the same in both builds. -/
def shared {α : Type} : Parse α → ErrParse α
  | .ok a => .ok a
  | .error s => .error (.parse s)

/-- The loop of `get_err_num`, for `n` entries from `i` on. -/
def getErrNumFrom (err : String) : ℕ → ℕ → ErrParse ℕ
  | 0, i => .ok i
  | n + 1, i =>
      match qdmaErrStr[i]? with
      | none => .error .nullName
      | some s => if s = err then .ok i else getErrNumFrom err n (i + 1)

/-- `get_err_num`. -/
def getErrNum (err : String) : ErrParse ℕ := getErrNumFrom err qdmaErrs 0

/-- `1 << QPARAM_ERR_NO`. -/
def errNoBit : BitVec 32 := 1#32 <<< 11

/-- The loop of `read_qparm` over `n` names and values. -/
def readErrs (argv : List String) : ℕ → ℕ → ErrWords → ErrParse (ℕ × ErrWords)
  | 0, i, e => .ok (i, e)
  | n + 1, i, e => do
      let i ← shared (getNextArg argv i)
      let err ← shared (argAt argv i)
      let errNo ← getErrNum err
      if errNo ≥ qdmaErrs then .error (.parse (.ret einval))
      else do
        let (i, enable) ← shared (nextInt argv i)
        readErrs argv n i (e.enter errNo (decide (enable ≠ 0)))

/-- `idx` of `read_qparm`, with the list of errors behind it. -/
def readErrIdx (argv : List String) (i : ℕ) (q : XcmdQParm) (e : ErrWords) (fArgSet : BitVec 32) :
    ErrParse (ℕ × XcmdQParm × ErrWords × BitVec 32) := do
  let (i, v) ← shared (nextInt argv i)
  let (i, numErrs) ← shared (nextInt argv i)
  if numErrs > qdmaErrs then .error (.parse (.ret einval))
  else do
    let (i, e) ← readErrs argv numErrs i e
    .ok (i + 1, { q with idx := v, numQ := 1 }, e, fArgSet ||| QParmType.idx.bit ||| errNoBit)

/-- The loop of `read_qparm`, for at most `fuel` rounds.  `help` returns from within, without
`f_arg_set`. -/
def readErrLoop (argv : List String) :
    ℕ → ℕ → XcmdQParm × ErrWords × BitVec 32 → ErrParse (XcmdQParm × ErrWords × Option (BitVec 32))
  | 0, _, _ => .error (.parse .fuel)
  | fuel + 1, i, (q, e, fArgSet) =>
      if i < argv.length then do
        let w ← shared (argAt argv i)
        if w = "help" then .ok (q, e, none)
        else if w = "idx" then do
          let (i, s) ← readErrIdx argv i q e fArgSet
          readErrLoop argv fuel i s
        else do
          let (i, q, fArgSet) ← shared (readQparmStep argv i q fArgSet)
          readErrLoop argv fuel i (q, e, fArgSet)
      else .ok (q, e, some fArgSet)

/-- The end of `read_qparm`, which `help` does not come to. -/
def finishErr (r : XcmdQParm × ErrWords × Option (BitVec 32)) : ErrParse (XcmdQParm × ErrWords) :=
  match r.2.2 with
  | none => .ok (r.1, r.2.1)
  | some f =>
      if f &&& (QParmType.idx.bit ||| errNoBit) ≠ QParmType.idx.bit ||| errNoBit then
        .error (.parse (.ret einval))
      else .ok (finishQparm r.1 f, r.2.1)

/-- `read_qparm` of `q err`. -/
def readErrQparm (argv : List String) (i : ℕ) (q : XcmdQParm) :
    ErrParse (XcmdQParm × ErrWords) := do
  let r ← readErrLoop argv (argv.length + 1) i ({ q with idx := xnlQidxInvalid }, {}, 0)
  finishErr r

/-- What `parse_cmd` fills for `q err`. -/
structure ErrCmd where
  vf : Bool
  ifIdx : ℕ
  qparm : XcmdQParm
  err : ErrWords

/-- `parse_cmd` of a line whose words 2 and 3 are `q` and `err`. -/
def parseErrCmd (argv : List String) : ErrParse ErrCmd := do
  let w ← shared (argAt argv 1)
  match parseIfname w with
  | none => .error (.parse (.ret einval))
  | some (vf, ifIdx) => do
      let i ← shared (getNextArg argv 3)
      let (q, e) ← readErrQparm argv i {}
      .ok { vf := vf, ifIdx := ifIdx, qparm := q, err := e }

/-! ## The message -/

/-- `XNL_CMD_Q_ERR_INDUCE`. -/
def xnlCmdQErrInduce : ℕ := 14

/-- `XNL_ATTR_QPARAM_ERR_SEL1`. -/
def xnlAttrQparamErrSel1 : ℕ := 27

/-- `XNL_ATTR_QPARAM_ERR_SEL2`. -/
def xnlAttrQparamErrSel2 : ℕ := 28

/-- `XNL_ATTR_QPARAM_ERR_MASK1`. -/
def xnlAttrQparamErrMask1 : ℕ := 29

/-- `XNL_ATTR_QPARAM_ERR_MASK2`. -/
def xnlAttrQparamErrMask2 : ℕ := 30

/-- The attributes of `q err`, in the order in which `xnl_send_cmd` writes them. -/
def errAttrs (x : ErrCmd) : List Attr :=
  [.int xnlAttrDevIdx x.ifIdx, .int xnlAttrQidx x.qparm.idx, .int xnlAttrQflag x.qparm.flags.toNat,
    .int xnlAttrQparamErrSel1 x.err.sel0.toNat, .int xnlAttrQparamErrSel2 x.err.sel1.toNat,
    .int xnlAttrQparamErrMask1 x.err.mask0.toNat, .int xnlAttrQparamErrMask2 x.err.mask1.toNat]

/-- `xnl_send_cmd` of `q err`, up to the message it sends. -/
def sendErrCmd (pid family : ℕ) (x : ErrCmd) : XnlMsg :=
  xnlMsg xnlRespBuflenMin pid family xnlCmdQErrInduce (errAttrs x)

/-- `nla_get_u32` of an attribute that is there. -/
def attrWord (attrs : InfoAttrs) (t : ℕ) : BitVec 32 := BitVec.ofNat 32 ((attrs t).getD 0)

/-- `xnl_err_induce`: the errors of the queue that the message names, which were `induceErr`, if the
message is not refused. -/
def xnlErrInduce (attrs : InfoAttrs) (induceErr : BitVec 64) : Option (BitVec 64) :=
  match qconfGet attrs with
  | .error _ => none
  | .ok _ =>
      let errSel := joinWords (attrWord attrs xnlAttrQparamErrSel2)
        (attrWord attrs xnlAttrQparamErrSel1)
      let errMask := joinWords (attrWord attrs xnlAttrQparamErrMask2)
        (attrWord attrs xnlAttrQparamErrMask1)
      some (qdmaQueueSetErrIndcution induceErr errSel errMask)

/-! ## Lines -/

/-- An option of `q err`: the queue with the number of errors and their names and values, or one of
the others. -/
inductive ErrOpt where
  | idx (w n : String) (errs : List (String × String))
  | other (o : QOpt)

/-- The words of names and values. -/
def pairWords (errs : List (String × String)) : List String := errs.flatMap fun p => [p.1, p.2]

/-- The words on the line. -/
def ErrOpt.words : ErrOpt → List String
  | .idx w n errs => "idx" :: w :: n :: pairWords errs
  | .other o => o.words

/-- Numbers are numbers, as many errors are there as announced, and not too many. -/
def ErrOpt.Ok : ErrOpt → Prop
  | .idx w n errs => Readable w ∧ Readable n ∧ wordVal n = errs.length ∧ errs.length ≤ qdmaErrs ∧
      ∀ p ∈ errs, Readable p.2
  | .other o => o.Ok ∧ ∀ w, o ≠ .idx w

/-- The names and values of errors. -/
def ErrOpt.errs : ErrOpt → List (String × Bool)
  | .idx _ _ errs => errs.map fun p => (p.1, decide (wordVal p.2 ≠ 0))
  | .other _ => []

/-- **A line of `q err`**: its options, up to the end or to `help`, behind which anything may be. -/
structure ErrLine where
  p : String
  w : String
  opts : List ErrOpt
  help : Option (List String)

/-- What ends the options. -/
def ErrLine.tail (l : ErrLine) : List String :=
  match l.help with
  | none => []
  | some t => "help" :: t

/-- The line. -/
def ErrLine.argv (l : ErrLine) : List String :=
  l.p :: l.w :: "q" :: "err" :: (l.opts.flatMap ErrOpt.words ++ l.tail)

/-- The errors on it. -/
def ErrLine.errs (l : ErrLine) : List (String × Bool) := l.opts.flatMap ErrOpt.errs

/-- **The line is in order**, whatever the names of the errors: there is such a device, each option
is in order, and the queue is given, or help is asked for. -/
structure ErrLine.InOrder (l : ErrLine) : Prop where
  device : parseIfname l.w ≠ none
  opts : ∀ o ∈ l.opts, o.Ok
  given : l.help = none → ∃ w n errs, ErrOpt.idx w n errs ∈ l.opts

/-- Both modes are asked for, which the driver refuses. -/
def ErrLine.BothModes (l : ErrLine) : Prop :=
  ErrOpt.other (.mode "st") ∈ l.opts ∧ ErrOpt.other (.mode "mm") ∈ l.opts

/-! ## The law -/

/-- **The errors are the named ones**: of the queue just these change, to the values asked for, and
no name leads behind the table. -/
structure RightErrs (l : ErrLine) : Prop where
  asked : ∀ x, parseErrCmd l.argv = .ok x → ∀ parse, NlaParseIn true parse → ∀ pid family s s',
    xnlErrInduce (parse (sendErrCmd pid family x)) s = some s' → AskedErrs l.errs s s'
  table : parseErrCmd l.argv ≠ .error .nullName

/-- **When they are**: every name is in the table, and, unless the driver refuses the line, none is
that of a misplaced error and what is switched on stays on. -/
structure ErrLine.Fits (l : ErrLine) : Prop where
  known : ∀ p ∈ l.errs, p.1 ∈ qdmaErrStr
  fit : l.BothModes ∨ ErrsFit l.errs

/-! ## A line is read -/

theorem err_bind {α β : Type} (a : α) (f : α → ErrParse β) : ((.ok a : ErrParse α) >>= f) = f a :=
  rfl

/-- **A name is found in the table**, or the entry that is `NULL` is reached. -/
theorem getErrNum_eq (err : String) : getErrNum err
    = if err ∈ qdmaErrStr then .ok (qdmaErrStr.idxOf err) else .error .nullName := by
  have hfrom : ∀ n i, i ≤ 59 → 59 < i + n → getErrNumFrom err n i
      = if err ∈ qdmaErrStr.drop i then .ok (i + (qdmaErrStr.drop i).idxOf err)
        else .error .nullName := by
    intro n
    induction n with
    | zero =>
        intro i hle hlt
        omega
    | succ n ih =>
        intro i hle hlt
        unfold getErrNumFrom
        by_cases hend : i = 59
        · subst hend
          rfl
        have hi : i < qdmaErrStr.length := show i < 59 by omega
        have hdrop := List.drop_eq_getElem_cons hi
        rw [List.getElem?_eq_getElem hi, hdrop]
        by_cases hs : qdmaErrStr[i] = err
        · simp only [hs]
          rw [if_pos trivial, if_pos List.mem_cons_self, List.idxOf_cons_self]
          rfl
        · simp only [hs, if_false]
          rw [ih (i + 1) (by omega) (by omega), List.idxOf_cons_ne _ hs]
          simp only [List.mem_cons, Ne.symm hs, false_or]
          rw [show i + 1 + (qdmaErrStr.drop (i + 1)).idxOf err
            = i + ((qdmaErrStr.drop (i + 1)).idxOf err).succ by omega]
  have hall := hfrom qdmaErrs 0 (by decide) (by decide)
  rwa [List.drop_zero, Nat.zero_add] at hall

section Read

variable {argv : List String}

theorem errNo_lt {err : String} (h : err ∈ qdmaErrStr) : ¬ qdmaErrStr.idxOf err ≥ qdmaErrs :=
  Nat.not_le.mpr (lt_trans (List.idxOf_lt_length_iff.mpr h) (show 59 < 60 by decide))

/-- One name and its value. -/
theorem readErrs_cons {i n : ℕ} {e : ErrWords} {k : String} {p : String × String} {t : List String}
    (h : argv.drop i = k :: p.1 :: p.2 :: t) (hread : Readable p.2) : readErrs argv (n + 1) i e
      = if p.1 ∈ qdmaErrStr then
          readErrs argv n (i + 2) (e.enter (qdmaErrStr.idxOf p.1) (decide (wordVal p.2 ≠ 0)))
        else .error .nullName := by
  have h1 := (argAt_of_drop h).2.2
  have hat := (argAt_of_drop h1).2.1
  show (shared (getNextArg argv i) >>= _) = _
  rw [getNextArg_of_drop h]
  show (shared (argAt argv (i + 1)) >>= _) = _
  rw [hat]
  show (getErrNum p.1 >>= _) = _
  rw [getErrNum_eq]
  by_cases hmem : p.1 ∈ qdmaErrStr
  · rw [if_pos hmem, if_pos hmem, err_bind, if_neg (errNo_lt hmem), nextInt_of_drop h1 hread]
    rfl
  · rw [if_neg hmem, if_neg hmem]
    rfl

/-- The words of an option. -/
def ErrOpt.enter (e : ErrWords) (o : ErrOpt) : ErrWords :=
  o.errs.foldl (fun w p => w.enter (qdmaErrStr.idxOf p.1) p.2) e

/-- **Names and values are read**, if all names are known. -/
theorem readErrs_of_drop {w n : String} {errs : List (String × String)} {i : ℕ} {e : ErrWords}
    {k : String} {t : List String} (h : argv.drop i = k :: (pairWords errs ++ t))
    (hread : ∀ p ∈ errs, Readable p.2) : readErrs argv errs.length i e
      = if ∀ p ∈ errs, p.1 ∈ qdmaErrStr then
          .ok (i + 2 * errs.length, (ErrOpt.idx w n errs).enter e)
        else .error .nullName := by
  induction errs generalizing i e k with
  | nil =>
      rw [if_pos (fun p hp => absurd hp List.not_mem_nil)]
      rfl
  | cons p errs ih =>
      have hcons : argv.drop i = k :: p.1 :: p.2 :: (pairWords errs ++ t) := h
      have h2 := (argAt_of_drop (argAt_of_drop hcons).2.2).2.2
      have hrest := ih (i := i + 2)
        (e := e.enter (qdmaErrStr.idxOf p.1) (decide (wordVal p.2 ≠ 0))) h2
        (fun q hq => hread q (List.mem_cons_of_mem _ hq))
      rw [List.length_cons, readErrs_cons hcons (hread p List.mem_cons_self), hrest,
        show i + 2 + 2 * errs.length = i + 2 * (errs.length + 1) by omega]
      by_cases hmem : p.1 ∈ qdmaErrStr
      · rw [if_pos hmem]
        simp only [List.forall_mem_cons, hmem, true_and]
        rfl
      · rw [if_neg hmem, if_neg (fun hall => hmem (hall p List.mem_cons_self))]

theorem length_pairWords (errs : List (String × String)) :
    (pairWords errs).length = 2 * errs.length := by
  induction errs with
  | nil => rfl
  | cons p errs ih =>
      show (pairWords errs).length + 1 + 1 = 2 * (errs.length + 1)
      omega

/-- **A queue with its errors is read**, if all names are known. -/
theorem readErrIdx_of_drop {w n : String} {errs : List (String × String)} {i : ℕ}
    {t : List String} (h : argv.drop i = (ErrOpt.idx w n errs).words ++ t)
    (hok : (ErrOpt.idx w n errs).Ok) (q : XcmdQParm) (e : ErrWords) (f : BitVec 32) :
    readErrIdx argv i q e f
      = if ∀ p ∈ errs, p.1 ∈ qdmaErrStr then
          .ok (i + (ErrOpt.idx w n errs).words.length, { q with idx := wordVal w, numQ := 1 },
            (ErrOpt.idx w n errs).enter e, f ||| QParmType.idx.bit ||| errNoBit)
        else .error .nullName := by
  obtain ⟨hw, hn, hlen, hle, hread⟩ := hok
  have hcons : argv.drop i = "idx" :: w :: n :: (pairWords errs ++ t) := h
  have h1 := (argAt_of_drop hcons).2.2
  have h2 := (argAt_of_drop h1).2.2
  show (shared (nextInt argv i) >>= _) = _
  rw [nextInt_of_drop hcons hw]
  show (shared (nextInt argv (i + 1)) >>= _) = _
  rw [nextInt_of_drop h1 hn]
  show (if wordVal n > qdmaErrs then _ else _) = _
  rw [if_neg (by omega), hlen, readErrs_of_drop (w := w) (n := n) h2 hread]
  by_cases hknown : ∀ p ∈ errs, p.1 ∈ qdmaErrStr
  · rw [if_pos hknown, if_pos hknown, err_bind]
    have hwords : (ErrOpt.idx w n errs).words.length = 2 * errs.length + 3 := by
      show (pairWords errs).length + 1 + 1 + 1 = _
      rw [length_pairWords]
    rw [hwords, show i + (2 * errs.length + 3) = i + 1 + 1 + 2 * errs.length + 1 by omega]
  · rw [if_neg hknown, if_neg hknown]
    rfl

/-- It as an option of the other build. -/
def ErrOpt.plain : ErrOpt → QOpt
  | .idx w _ _ => .idx w
  | .other o => o

/-- The bits it sets in `f_arg_set`. -/
def ErrOpt.bits : ErrOpt → BitVec 32
  | .idx _ _ _ => QParmType.idx.bit ||| errNoBit
  | .other o => o.bit

/-- The parameters, the words and `f_arg_set` after it. -/
def ErrOpt.apply (s : XcmdQParm × ErrWords × BitVec 32) (o : ErrOpt) :
    XcmdQParm × ErrWords × BitVec 32 :=
  (o.plain.enter s.1, o.enter s.2.1, s.2.2 ||| o.bits)

theorem length_words_err (o : ErrOpt) : 0 < o.words.length := by
  cases o with
  | idx w n errs => exact Nat.succ_pos _
  | other o => exact length_words_pos o

/-- The first word of another option. -/
theorem other_words {o : QOpt} (h : ∀ w, o ≠ .idx w) :
    ∃ k t, o.words = k :: t ∧ k ≠ "help" ∧ k ≠ "idx" := by
  cases o with
  | idx w => exact absurd rfl (h w)
  | size t w => cases t <;> exact ⟨_, _, rfl, by decide, by decide⟩
  | flag f => cases f <;> exact ⟨_, _, rfl, by decide, by decide⟩
  | _ => exact ⟨_, _, rfl, by decide, by decide⟩

/-- A round of the loop, at a word. -/
theorem readErrLoop_succ {i : ℕ} {k : String} (hlt : i < argv.length) (hat : argAt argv i = .ok k)
    (fuel : ℕ) (s : XcmdQParm × ErrWords × BitVec 32) : readErrLoop argv (fuel + 1) i s
      = if k = "help" then .ok (s.1, s.2.1, none)
        else if k = "idx" then
          readErrIdx argv i s.1 s.2.1 s.2.2 >>= fun r => readErrLoop argv fuel r.1 r.2
        else shared (readQparmStep argv i s.1 s.2.2) >>= fun r =>
          readErrLoop argv fuel r.1 (r.2.1, s.2.1, r.2.2) := by
  conv_lhs => unfold readErrLoop
  simp only
  rw [if_pos hlt, hat]
  rfl

/-- **A round of the loop**: an option is read, if its names are known. -/
theorem readErrLoop_option {o : ErrOpt} (hok : o.Ok) {fuel i : ℕ}
    {s : XcmdQParm × ErrWords × BitVec 32} {t : List String} (h : argv.drop i = o.words ++ t) :
    readErrLoop argv (fuel + 1) i s
      = if ∀ p ∈ o.errs, p.1 ∈ qdmaErrStr then
          readErrLoop argv fuel (i + o.words.length) (o.apply s)
        else .error .nullName := by
  obtain ⟨q, e, f⟩ := s
  cases o with
  | idx w n errs =>
      have hcons : argv.drop i = "idx" :: (w :: n :: (pairWords errs ++ t)) := h
      obtain ⟨hlt, hat, -⟩ := argAt_of_drop hcons
      have hnames : (∀ p ∈ (ErrOpt.idx w n errs).errs, p.1 ∈ qdmaErrStr) ↔
          ∀ p ∈ errs, p.1 ∈ qdmaErrStr := List.forall_mem_map
      rw [readErrLoop_succ hlt hat, if_neg (by decide), if_pos rfl, readErrIdx_of_drop h hok,
        if_congr hnames rfl rfl]
      by_cases hknown : ∀ p ∈ errs, p.1 ∈ qdmaErrStr
      · rw [if_pos hknown, if_pos hknown, err_bind, BitVec.or_assoc]
        rfl
      · rw [if_neg hknown, if_neg hknown]
        rfl
  | other o =>
      obtain ⟨k, t', hwords, hhelp, hidx⟩ := other_words hok.2
      have hcons : argv.drop i = k :: (t' ++ t) := by
        rw [h]
        show o.words ++ t = _
        rw [hwords]
        rfl
      obtain ⟨hlt, hat, -⟩ := argAt_of_drop hcons
      have hnone : ∀ p ∈ (ErrOpt.other o).errs, p.1 ∈ qdmaErrStr :=
        fun p hp => absurd hp List.not_mem_nil
      rw [if_pos hnone, readErrLoop_succ hlt hat, if_neg hhelp, if_neg hidx,
        readQparmStep_of_drop hok.1 h (q, f)]
      rfl

/-- **The loop reads the options**, if their names are known. -/
theorem readErrLoop_of_drop {opts : List ErrOpt} (hok : ∀ o ∈ opts, o.Ok) {fuel i : ℕ}
    {s : XcmdQParm × ErrWords × BitVec 32} {t : List String}
    (h : argv.drop i = opts.flatMap ErrOpt.words ++ t) (hi : i ≤ argv.length)
    (hfuel : argv.length < i + fuel) :
    ((∀ o ∈ opts, ∀ p ∈ o.errs, p.1 ∈ qdmaErrStr) → ∃ fuel' i', argv.drop i' = t ∧
        i' ≤ argv.length ∧ argv.length < i' + fuel' ∧
        readErrLoop argv fuel i s = readErrLoop argv fuel' i' (opts.foldl ErrOpt.apply s)) ∧
      ((∃ o ∈ opts, ∃ p ∈ o.errs, p.1 ∉ qdmaErrStr) →
        readErrLoop argv fuel i s = .error .nullName) := by
  induction opts generalizing i s fuel with
  | nil =>
      refine ⟨fun _ => ⟨fuel, i, h, hi, hfuel, rfl⟩, ?_⟩
      rintro ⟨o, ho, -⟩
      exact absurd ho List.not_mem_nil
  | cons o opts ih =>
      rw [List.flatMap_cons, List.append_assoc] at h
      have hpos := length_words_err o
      have hlen := congrArg List.length h
      rw [List.length_drop, List.length_append] at hlen
      have hrest : argv.drop (i + o.words.length) = opts.flatMap ErrOpt.words ++ t := by
        rw [← List.drop_drop, h, List.drop_left]
      cases fuel with
      | zero => omega
      | succ fuel =>
          rw [readErrLoop_option (hok o List.mem_cons_self) h]
          have hfuel' : argv.length < i + o.words.length + fuel := by omega
          obtain ⟨ihknown, ihnull⟩ := ih (s := o.apply s)
            (fun o' ho' => hok o' (List.mem_cons_of_mem _ ho')) hrest (by omega) hfuel'
          constructor
          · intro hknown
            rw [if_pos (hknown o List.mem_cons_self)]
            exact ihknown fun o' ho' => hknown o' (List.mem_cons_of_mem _ ho')
          · rintro ⟨o', ho', p, hp, hno⟩
            by_cases hhead : ∀ p ∈ o.errs, p.1 ∈ qdmaErrStr
            · rw [if_pos hhead]
              rcases List.mem_cons.mp ho' with rfl | ho'
              · exact absurd (hhead p hp) hno
              · exact ihnull ⟨o', ho', p, hp, hno⟩
            · exact if_neg hhead

end Read

/-! ## What a line comes to -/

/-- What the loop starts from. -/
def errStart : XcmdQParm × ErrWords × BitVec 32 := ({ idx := xnlQidxInvalid }, {}, 0)

section Line

variable (opts : List ErrOpt)

theorem foldl_plain (s : XcmdQParm × ErrWords × BitVec 32) : (opts.foldl ErrOpt.apply s).1
    = (opts.map ErrOpt.plain).foldl QOpt.enter s.1 := by
  induction opts generalizing s with
  | nil => rfl
  | cons o opts ih => exact ih (o.apply s)

theorem enterAll_enter (opts : List QOpt) (s : XcmdQParm × BitVec 32) :
    (opts.foldl QOpt.apply s).1 = opts.foldl QOpt.enter s.1 := by
  induction opts generalizing s with
  | nil => rfl
  | cons o opts ih => exact ih (o.apply s)

/-- **The words are those of all names and values.** -/
theorem foldl_words (s : XcmdQParm × ErrWords × BitVec 32) : (opts.foldl ErrOpt.apply s).2.1
    = (opts.flatMap ErrOpt.errs).foldl (fun w p => w.enter (qdmaErrStr.idxOf p.1) p.2) s.2.1 := by
  induction opts generalizing s with
  | nil => rfl
  | cons o opts ih =>
      rw [List.flatMap_cons, List.foldl_append]
      exact ih (o.apply s)

theorem foldl_bits_err (s : XcmdQParm × ErrWords × BitVec 32) :
    (opts.foldl ErrOpt.apply s).2.2 = (opts.map ErrOpt.bits).foldl (· ||| ·) s.2.2 := by
  induction opts generalizing s with
  | nil => rfl
  | cons o opts ih => exact ih (o.apply s)

/-- The index is a number of 32 bits. -/
theorem foldl_idx_lt (opts : List QOpt) {q : XcmdQParm} (h : q.idx < 2 ^ 32) :
    (opts.foldl QOpt.enter q).idx < 2 ^ 32 := by
  induction opts generalizing q with
  | nil => exact h
  | cons o opts ih =>
      apply ih
      cases o with
      | idx w => exact wordVal_lt w
      | list w n => exact wordVal_lt w
      | size t w => cases t <;> exact h
      | flag f => cases f <;> exact h
      | _ => exact h

/-- The mode flags are those that are asked for. -/
theorem foldl_mode {k : ℕ} (hk : k ∈ [0, 1]) (m : String) (hm : flagOpts k = [.mode m]) :
    (opts.foldl ErrOpt.apply errStart).1.flags.getLsbD k = true ↔
      ErrOpt.other (.mode m) ∈ opts := by
  have hk' : k ∈ [0, 1, 2, 3, 4, 5, 11, 12] := by
    simp only [List.mem_cons, List.not_mem_nil, or_false] at hk ⊢
    omega
  have hall := enterAll_flag hk' (opts.map ErrOpt.plain)
  unfold enterAll at hall
  rw [enterAll_enter] at hall
  rw [foldl_plain]
  refine hall.trans ?_
  rw [hm]
  constructor
  · rintro ⟨o, ho, hmode⟩
    rw [List.mem_singleton.mp hmode] at ho
    obtain ⟨o', ho', hplain⟩ := List.mem_map.mp ho
    cases o' with
    | idx w n errs => exact nomatch hplain
    | other o' =>
        obtain rfl : o' = .mode m := hplain
        exact ho'
  · intro h
    exact ⟨_, List.mem_map.mpr ⟨_, h, rfl⟩, List.mem_singleton_self _⟩

/-- **What is required** is there just with a queue and its errors. -/
theorem required_iff : (opts.foldl ErrOpt.apply errStart).2.2 &&& (QParmType.idx.bit ||| errNoBit)
      = QParmType.idx.bit ||| errNoBit ↔ ∃ w n errs, ErrOpt.idx w n errs ∈ opts := by
  have hbits : ∀ k, (QParmType.idx.bit ||| errNoBit).getLsbD k
      = (decide (0 = k) || decide (11 = k)) := by
    intro k
    show (BitVec.twoPow 32 0 ||| BitVec.twoPow 32 11).getLsbD k = _
    rw [BitVec.getLsbD_or, BitVec.getLsbD_twoPow, BitVec.getLsbD_twoPow]
    rfl
  have hbit : ∀ k, (opts.foldl ErrOpt.apply errStart).2.2.getLsbD k = true ↔
      ∃ o ∈ opts, o.bits.getLsbD k = true := by
    intro k
    rw [foldl_bits_err, foldl_or_bit]
    simp [errStart]
  rw [and_two_iff hbits, hbit, hbit]
  constructor
  · rintro ⟨-, o, ho, hset⟩
    cases o with
    | idx w n errs => exact ⟨w, n, errs, ho⟩
    | other o =>
        have htype : ∀ t : QParmType, t.bit.getLsbD 11 = false := by
          intro t
          cases t <;> decide
        have hno : o.bit.getLsbD 11 = false := by
          cases o with
          | flag f => exact BitVec.getLsbD_zero
          | _ => exact htype _
        exact absurd (hno.symm.trans hset) Bool.false_ne_true
  · rintro ⟨w, n, errs, h⟩
    exact ⟨⟨_, h, (hbits 0).trans (by decide)⟩, ⟨_, h, (hbits 11).trans (by decide)⟩⟩

end Line

/-- The end of the line, or `help`. -/
theorem readErrLoop_end {l : ErrLine} {argv : List String} {fuel i : ℕ}
    (s : XcmdQParm × ErrWords × BitVec 32) (h : argv.drop i = l.tail) (hi : i ≤ argv.length)
    (hfuel : argv.length < i + fuel) : readErrLoop argv fuel i s
      = .ok (s.1, s.2.1, if l.help = none then some s.2.2 else none) := by
  cases fuel with
  | zero => omega
  | succ fuel =>
      cases hhelp : l.help with
      | none =>
          unfold ErrLine.tail at h
          rw [hhelp] at h
          have hlen := congrArg List.length h
          rw [List.length_drop, List.length_nil] at hlen
          unfold readErrLoop
          simp only
          rw [if_neg (by omega)]
          rfl
      | some t =>
          unfold ErrLine.tail at h
          rw [hhelp] at h
          obtain ⟨hlt, hat, -⟩ := argAt_of_drop h
          rw [readErrLoop_succ hlt hat]
          rfl

theorem readErrQparm_eq (argv : List String) (i : ℕ) : readErrQparm argv i {}
    = (readErrLoop argv (argv.length + 1) i errStart >>= finishErr) := rfl

/-- `parse_cmd` of a line for a device. -/
theorem parseErrCmd_eq (p w : String) (rest : List String) :
    parseErrCmd (p :: w :: "q" :: "err" :: rest) = (match parseIfname w with
      | none => .error (.parse (.ret einval))
      | some (vf, ifIdx) =>
          shared (getNextArg (p :: w :: "q" :: "err" :: rest) 3) >>= fun i =>
            readErrQparm (p :: w :: "q" :: "err" :: rest) i {} >>= fun r =>
              .ok { vf := vf, ifIdx := ifIdx, qparm := r.1, err := r.2 }) := rfl

/-- What the driver reads of the parameters. -/
structure ErrParms (opts : List ErrOpt) (q : XcmdQParm) : Prop where
  idx : q.idx < 2 ^ 32
  st : q.flags.getLsbD 0 = true ↔ ErrOpt.other (.mode "st") ∈ opts
  mm : q.flags.getLsbD 1 = true ↔ ErrOpt.other (.mode "mm") ∈ opts

/-- **`read_qparm` of a line in order**, if all names are known. -/
theorem readErrQparm_line {l : ErrLine} (h : l.InOrder) (hknown : ∀ p ∈ l.errs, p.1 ∈ qdmaErrStr) :
    ∃ q, readErrQparm l.argv 4 {} = .ok (q, errWords l.errs) ∧ ErrParms l.opts q := by
  have hnames : ∀ o ∈ l.opts, ∀ p ∈ o.errs, p.1 ∈ qdmaErrStr :=
    fun o ho p hp => hknown p (List.mem_flatMap.mpr ⟨o, ho, hp⟩)
  have hdrop : l.argv.drop 4 = l.opts.flatMap ErrOpt.words ++ l.tail := rfl
  have hlen : 4 ≤ l.argv.length := by
    show 4 ≤ (l.opts.flatMap ErrOpt.words ++ l.tail).length + 1 + 1 + 1 + 1
    omega
  have hrounds : l.argv.length < 4 + (l.argv.length + 1) := by omega
  obtain ⟨fuel, i, htail, hi, hfuel, hloop⟩ :=
    (readErrLoop_of_drop h.opts (s := errStart) hdrop hlen hrounds).1 hnames
  rw [readErrLoop_end _ htail hi hfuel, foldl_words] at hloop
  have hparms : ErrParms l.opts (l.opts.foldl ErrOpt.apply errStart).1 := by
    refine ⟨?_, foldl_mode l.opts (by decide) "st" rfl, foldl_mode l.opts (by decide) "mm" rfl⟩
    rw [foldl_plain]
    exact foldl_idx_lt _ (show xnlQidxInvalid < 2 ^ 32 by decide)
  rw [readErrQparm_eq, hloop, err_bind]
  unfold finishErr
  by_cases hhelp : l.help = none
  · simp only [hhelp, if_true]
    rw [if_neg (not_not.mpr ((required_iff l.opts).mpr (h.given hhelp)))]
    refine ⟨_, rfl, ?_⟩
    -- the direction is no mode
    have hflag : ∀ k ∈ [0, 1], ∀ f : BitVec 32, ∀ q : XcmdQParm,
        (finishQparm q f).flags.getLsbD k = q.flags.getLsbD k := by
      intro k hk f q
      have hno : ∀ b : Bool, (if b then xnlFQdirH2c else 0#32).getLsbD k = false := by
        simp only [List.mem_cons, List.not_mem_nil, or_false] at hk
        intro b
        rcases hk with rfl | rfl <;> cases b <;> rfl
      have hdir := hno (decide (f &&& QParmType.dir.bit = 0))
      rw [finishQparm_flags, BitVec.getLsbD_or]
      simp only [decide_eq_true_eq] at hdir
      rw [hdir, Bool.or_false]
    refine ⟨?_, ?_, ?_⟩
    · have hidx : ∀ q f, (finishQparm q f).idx = q.idx := by
        intro q f
        unfold finishQparm
        split_ifs <;> rfl
      rw [hidx]
      exact hparms.idx
    · rw [hflag 0 (by decide)]
      exact hparms.st
    · rw [hflag 1 (by decide)]
      exact hparms.mm
  · simp only [hhelp, if_false]
    exact ⟨_, rfl, hparms⟩

/-- **`parse_cmd` of a line in order.** -/
theorem parseErrCmd_line {l : ErrLine} (h : l.InOrder) :
    ((∀ p ∈ l.errs, p.1 ∈ qdmaErrStr) → ∃ vf ifIdx q, parseIfname l.w = some (vf, ifIdx) ∧
        parseErrCmd l.argv
          = .ok { vf := vf, ifIdx := ifIdx, qparm := q, err := errWords l.errs } ∧
        ErrParms l.opts q) ∧
      ((∃ p ∈ l.errs, p.1 ∉ qdmaErrStr) → parseErrCmd l.argv = .error .nullName) := by
  obtain ⟨⟨vf, ifIdx⟩, hname⟩ := Option.ne_none_iff_exists'.mp h.device
  have hne : l.opts.flatMap ErrOpt.words ++ l.tail ≠ [] := by
    cases hhelp : l.help with
    | none =>
        obtain ⟨w, n, errs, hmem⟩ := h.given hhelp
        intro hnil
        have hwords := List.flatMap_eq_nil_iff.mp (List.append_eq_nil_iff.mp hnil).1 _ hmem
        exact nomatch hwords
    | some t =>
        unfold ErrLine.tail
        rw [hhelp]
        exact List.append_ne_nil_of_right_ne_nil _ (List.cons_ne_nil _ _)
  have hpos := List.length_pos_iff.mpr hne
  have hlen : l.argv.length = (l.opts.flatMap ErrOpt.words ++ l.tail).length + 1 + 1 + 1 + 1 := rfl
  have hnext : getNextArg l.argv 3 = .ok 4 := by
    unfold getNextArg
    rw [if_neg (by omega)]
  have hparse : parseErrCmd l.argv = (readErrQparm l.argv 4 {} >>= fun r =>
      .ok { vf := vf, ifIdx := ifIdx, qparm := r.1, err := r.2 }) := by
    unfold ErrLine.argv at hnext ⊢
    rw [parseErrCmd_eq, hname]
    simp only
    rw [hnext]
    rfl
  rw [hparse]
  constructor
  · intro hknown
    obtain ⟨q, hread, hparms⟩ := readErrQparm_line h hknown
    exact ⟨vf, ifIdx, q, hname, by rw [hread]; rfl, hparms⟩
  · rintro ⟨p, hp, hno⟩
    obtain ⟨o, ho, hpo⟩ := List.mem_flatMap.mp hp
    have hdrop : l.argv.drop 4 = l.opts.flatMap ErrOpt.words ++ l.tail := rfl
    have hrounds : l.argv.length < 4 + (l.argv.length + 1) := by omega
    have hloop := (readErrLoop_of_drop h.opts (s := errStart) hdrop (by omega) hrounds).2
      ⟨o, ho, p, hpo, hno⟩
    rw [readErrQparm_eq, hloop]
    rfl

/-! ## The message arrives -/

/-- The numbers of the command are 32 bits wide. -/
theorem errAttrs_ok {x : ErrCmd} (hif : x.ifIdx < 2 ^ 32) (hidx : x.qparm.idx < 2 ^ 32) :
    ∀ a ∈ errAttrs x, a.Ok true ∧ ∃ type v, a = .int type v := by
  intro a ha
  unfold errAttrs at ha
  simp only [List.mem_cons, List.not_mem_nil, or_false] at ha
  rcases ha with ha | ha | ha | ha | ha | ha | ha
  · exact intAttr_ok (by decide) hif ha
  · exact intAttr_ok (by decide) hidx ha
  · exact intAttr_ok (by decide) x.qparm.flags.isLt ha
  · exact intAttr_ok (by decide) x.err.sel0.isLt ha
  · exact intAttr_ok (by decide) x.err.sel1.isLt ha
  · exact intAttr_ok (by decide) x.err.mask0.isLt ha
  · exact intAttr_ok (by decide) x.err.mask1.isLt ha

/-- **The driver finds the words** that are sent. -/
theorem errCmd_parsed {parse : XnlMsg → InfoAttrs} (hparse : NlaParseIn true parse)
    (pid family : ℕ) {x : ErrCmd} (hif : x.ifIdx < 2 ^ 32) (hidx : x.qparm.idx < 2 ^ 32) (t : ℕ) :
    parse (sendErrCmd pid family x) t
      = ((errAttrs x).filterMap (Attr.valueOf t)).getLast? := by
  have hok := errAttrs_ok hif hidx
  have hlen : attrsLen (errAttrs x) ≤ xnlRespBuflenMin := by
    unfold errAttrs
    rw [attrsLen_int, attrsLen_int, attrsLen_int, attrsLen_int, attrsLen_int, attrsLen_int,
      attrsLen_int]
    decide
  exact hparse xnlRespBuflenMin (by decide) _ _ hok hlen
    (xnlMsg_built (by decide) pid family _ (fun a ha => (hok a ha).1) hlen) t

/-- **The errors of the queue** after the message: those of the words, unless both modes are
asked for. -/
theorem errInduce_parsed {parse : XnlMsg → InfoAttrs} (hparse : NlaParseIn true parse)
    (pid family : ℕ) {x : ErrCmd} (hif : x.ifIdx < 2 ^ 32) (hidx : x.qparm.idx < 2 ^ 32)
    (s : BitVec 64) : xnlErrInduce (parse (sendErrCmd pid family x)) s
      = if x.qparm.flags.getLsbD 0 = true ∧ x.qparm.flags.getLsbD 1 = true then none
        else some (qdmaQueueSetErrIndcution s x.err.sel x.err.mask) := by
  have hattr := errCmd_parsed hparse pid family hif hidx
  have hword : ∀ t (w : BitVec 32), parse (sendErrCmd pid family x) t = some w.toNat →
      attrWord (parse (sendErrCmd pid family x)) t = w := by
    intro t w ht
    unfold attrWord
    rw [ht]
    exact BitVec.ofNat_toNat _ _ |>.trans (by simp)
  unfold xnlErrInduce qconfGet
  rw [show parse (sendErrCmd pid family x) xnlAttrQflag = some x.qparm.flags.toNat from hattr _,
    show parse (sendErrCmd pid family x) xnlAttrQidx = some x.qparm.idx from hattr _]
  simp only [BitVec.ofNat_toNat, BitVec.setWidth_eq]
  rw [hword _ x.err.sel1 (hattr _), hword _ x.err.sel0 (hattr _), hword _ x.err.mask1 (hattr _),
    hword _ x.err.mask0 (hattr _)]
  have hst : hasFlag x.qparm.flags xnlFQmodeSt = x.qparm.flags.getLsbD 0 :=
    hasFlag_of rfl (by decide)
  have hmm : hasFlag x.qparm.flags xnlFQmodeMm = x.qparm.flags.getLsbD 1 :=
    hasFlag_of rfl (by decide)
  rw [hst, hmm]
  by_cases hboth : x.qparm.flags.getLsbD 0 = true ∧ x.qparm.flags.getLsbD 1 = true
  · rw [if_pos hboth, if_pos hboth]
  · rw [if_neg hboth, if_neg hboth]
    rfl

/-! ## Every accepted line -/

section Accepted

variable {argv : List String}

/-- Names and values that have been read. -/
theorem readErrs_read (n : ℕ) {i : ℕ} {e : ErrWords} {r : ℕ × ErrWords} (hi : i < argv.length)
    (h : readErrs argv n i e = .ok r) : ∃ errs : List (String × String), errs.length = n ∧
      argv.drop (i + 1) = pairWords errs ++ argv.drop (r.1 + 1) ∧ i ≤ r.1 ∧ r.1 < argv.length ∧
      ∀ p ∈ errs, Readable p.2 := by
  induction n generalizing i e with
  | zero =>
      obtain rfl : (i, e) = r := Except.ok.inj h
      exact ⟨[], rfl, rfl, le_refl i, hi, fun p hp => absurd hp List.not_mem_nil⟩
  | succ n ih =>
      replace h : (shared (getNextArg argv i) >>= _) = _ := h
      rcases getNextArg_cases hi with ⟨hlt, hget⟩ | ⟨-, hget⟩
      swap
      · rw [hget] at h
        exact nomatch h
      obtain ⟨err, hat, -, hdrop⟩ := argAt_of_lt hlt
      rw [hget] at h
      replace h : (shared (argAt argv (i + 1)) >>= _) = _ := h
      rw [hat] at h
      replace h : (getErrNum err >>= _) = _ := h
      rw [getErrNum_eq] at h
      by_cases hmem : err ∈ qdmaErrStr
      swap
      · rw [if_neg hmem] at h
        exact nomatch h
      rw [if_pos hmem, err_bind, if_neg (errNo_lt hmem)] at h
      rcases nextInt_cases hlt with ⟨v, hlt', -, hdrop', hread, hint⟩ | hint
      swap
      · rw [hint] at h
        exact nomatch h
      rw [hint] at h
      obtain ⟨errs, hlen, hwords, hir, hr, hreads⟩ := ih hlt' h
      refine ⟨(err, v) :: errs, by rw [List.length_cons, hlen], ?_, by omega, hr, ?_⟩
      · rw [hdrop, hdrop', hwords]
        rfl
      · intro p hp
        rcases List.mem_cons.mp hp with rfl | hp
        · exact hread
        · exact hreads p hp

/-- A queue with its errors that has been read. -/
theorem readErrIdx_read {i : ℕ} {q : XcmdQParm} {e : ErrWords} {f : BitVec 32}
    {r : ℕ × XcmdQParm × ErrWords × BitVec 32} (hi : i < argv.length)
    (hidx : argv.drop i = "idx" :: argv.drop (i + 1)) (h : readErrIdx argv i q e f = .ok r) :
    ∃ w n errs, (ErrOpt.idx w n errs).Ok ∧
      argv.drop i = (ErrOpt.idx w n errs).words ++ argv.drop r.1 ∧ i < r.1 ∧
      r.1 ≤ argv.length ∧ r.2.2.2 = f ||| (ErrOpt.idx w n errs).bits := by
  replace h : (shared (nextInt argv i) >>= _) = _ := h
  rcases nextInt_cases hi with ⟨w, hlt, -, hdrop, hread, hint⟩ | hint
  swap
  · rw [hint] at h
    exact nomatch h
  rw [hint] at h
  replace h : (shared (nextInt argv (i + 1)) >>= _) = _ := h
  rcases nextInt_cases hlt with ⟨n, hlt', -, hdrop', hread', hint'⟩ | hint'
  swap
  · rw [hint'] at h
    exact nomatch h
  rw [hint'] at h
  replace h : (if wordVal n > qdmaErrs then _ else _) = _ := h
  by_cases hmany : wordVal n > qdmaErrs
  · rw [if_pos hmany] at h
    exact nomatch h
  rw [if_neg hmany] at h
  cases herrs : readErrs argv (wordVal n) (i + 1 + 1) e with
  | error s =>
      rw [herrs] at h
      exact nomatch h
  | ok r' =>
      rw [herrs] at h
      obtain rfl := Except.ok.inj h
      obtain ⟨errs, hlen, hwords, hir, hr, hreads⟩ := readErrs_read _ hlt' herrs
      refine ⟨w, n, errs, ⟨hread, hread', hlen.symm, by omega, hreads⟩, ?_, ?_, hr,
        BitVec.or_assoc _ _ _⟩
      · rw [hidx, hdrop, hdrop', hwords]
        rfl
      · show i < r'.1 + 1
        omega

/-- The words from `i` on are options, up to the end or to `help`; at the end `last` has their
bits. -/
def LoopRead (argv : List String) (i : ℕ) (f : BitVec 32) (last : Option (BitVec 32)) : Prop :=
  ∃ l : ErrLine, (∀ o ∈ l.opts, o.Ok) ∧ argv.drop i = l.opts.flatMap ErrOpt.words ++ l.tail ∧
    (l.help = none → last = some ((l.opts.map ErrOpt.bits).foldl (· ||| ·) f))

/-- An option in front. -/
theorem LoopRead.cons {o : ErrOpt} {i i' : ℕ} {f : BitVec 32} {last : Option (BitVec 32)}
    (hok : o.Ok) (hwords : argv.drop i = o.words ++ argv.drop i')
    (h : LoopRead argv i' (f ||| o.bits) last) : LoopRead argv i f last := by
  obtain ⟨l, hoks, hrest, hlast⟩ := h
  refine ⟨{ l with opts := o :: l.opts }, ?_, ?_, hlast⟩
  · intro o' ho'
    rcases List.mem_cons.mp ho' with rfl | ho'
    · exact hok
    · exact hoks o' ho'
  · rw [hwords, hrest, List.flatMap_cons, List.append_assoc]
    rfl

/-- **The options that have been read.** -/
theorem readErrLoop_read (fuel : ℕ) {i : ℕ} {s : XcmdQParm × ErrWords × BitVec 32}
    {r : XcmdQParm × ErrWords × Option (BitVec 32)} (hi : i ≤ argv.length)
    (h : readErrLoop argv fuel i s = .ok r) : LoopRead argv i s.2.2 r.2.2 := by
  induction fuel generalizing i s with
  | zero => exact nomatch h
  | succ fuel ih =>
      by_cases hlt : i < argv.length
      swap
      · unfold readErrLoop at h
        simp only at h
        rw [if_neg hlt] at h
        refine ⟨⟨"", "", [], none⟩, fun o ho => absurd ho List.not_mem_nil, ?_, fun _ => ?_⟩
        · rw [List.drop_eq_nil_of_le (Nat.not_lt.mp hlt)]
          rfl
        · rw [← Except.ok.inj h]
          rfl
      obtain ⟨k, hat, -, hdrop⟩ := argAt_of_lt hlt
      rw [readErrLoop_succ hlt hat] at h
      by_cases hhelp : k = "help"
      · subst hhelp
        exact ⟨⟨"", "", [], some (argv.drop (i + 1))⟩, fun o ho => absurd ho List.not_mem_nil,
          hdrop, fun hno => nomatch hno⟩
      rw [if_neg hhelp] at h
      by_cases hidx : k = "idx"
      · rw [if_pos hidx] at h
        cases hread : readErrIdx argv i s.1 s.2.1 s.2.2 with
        | error e =>
            rw [hread] at h
            exact nomatch h
        | ok r' =>
            rw [hread, err_bind] at h
            obtain ⟨w, n, errs, hok, hwords, -, hle, hbits⟩ :=
              readErrIdx_read hlt (hidx ▸ hdrop) hread
            apply LoopRead.cons hok hwords
            rw [← hbits]
            exact ih hle h
      · rw [if_neg hidx] at h
        rcases readQparmStep_spec hlt (s := (s.1, s.2.2)) with
          herr | ⟨o, i', hok, hwords, -, hle, hstep⟩
        · rw [show readQparmStep argv i s.1 s.2.2 = _ from herr] at h
          exact nomatch h
        · rw [show readQparmStep argv i s.1 s.2.2 = _ from hstep] at h
          have hother : ∀ w, o ≠ .idx w := by
            rintro w rfl
            rw [hdrop] at hwords
            exact hidx (List.cons.inj hwords).1
          have hokr : (ErrOpt.other o).Ok := ⟨hok, hother⟩
          exact LoopRead.cons hokr hwords (ih hle h)

end Accepted

/-- **An accepted line is in order.** -/
theorem accepted_line {p w : String} {rest : List String} {x : ErrCmd}
    (h : parseErrCmd (p :: w :: "q" :: "err" :: rest) = .ok x) :
    ∃ l : ErrLine, l.InOrder ∧ l.argv = p :: w :: "q" :: "err" :: rest := by
  rw [parseErrCmd_eq] at h
  generalize hargv : p :: w :: "q" :: "err" :: rest = argv at h
  have hlen : argv.length = rest.length + 4 := by
    rw [← hargv]
    rfl
  cases hname : parseIfname w with
  | none =>
      rw [hname] at h
      exact nomatch h
  | some d =>
      rw [hname] at h
      simp only at h
      rcases getNextArg_cases (show 3 < argv.length by omega) with ⟨-, hget⟩ | ⟨-, hget⟩
      swap
      · rw [hget] at h
        exact nomatch h
      rw [hget] at h
      replace h : (readErrQparm argv 4 {} >>= _) = _ := h
      rw [readErrQparm_eq] at h
      cases hloop : readErrLoop argv (argv.length + 1) 4 errStart with
      | error e =>
          rw [hloop] at h
          exact nomatch h
      | ok r =>
          rw [hloop, err_bind] at h
          obtain ⟨l, hoks, hwords, hlast⟩ := readErrLoop_read _ (by omega) hloop
          refine ⟨{ l with p := p, w := w }, ⟨?_, hoks, ?_⟩, ?_⟩
          · rw [show parseIfname w = _ from hname]
            exact Option.some_ne_none d
          · intro hhelp
            obtain ⟨q, e, last⟩ := r
            obtain rfl : last = _ := hlast hhelp
            apply (required_iff l.opts).mp
            rw [foldl_bits_err]
            by_contra hreq
            unfold finishErr at h
            simp only at h
            rw [if_pos hreq] at h
            exact nomatch h
          · have hrest : rest = l.opts.flatMap ErrOpt.words ++ l.tail := by
              rw [← hwords, ← hargv]
              rfl
            rw [← hargv, hrest]
            rfl

/-! ## Lines whose errors are the named ones -/

/-- A line in order has the named errors changed just when it fits. -/
theorem rightErrs_iff {l : ErrLine} (h : l.InOrder) : RightErrs l ↔ l.Fits := by
  obtain ⟨hknown, hunknown⟩ := parseErrCmd_line h
  by_cases hall : ∀ p ∈ l.errs, p.1 ∈ qdmaErrStr
  swap
  · push Not at hall
    refine iff_of_false (fun hr => hr.table (hunknown hall)) fun hfits => ?_
    obtain ⟨p, hp, hno⟩ := hall
    exact hno (hfits.known p hp)
  obtain ⟨vf, ifIdx, q, hname, hparse, hq⟩ := hknown hall
  have hif : ifIdx < 2 ^ 32 := lt_trans (parseIfname_lt hname) (by decide)
  have hboth : q.flags.getLsbD 0 = true ∧ q.flags.getLsbD 1 = true ↔ l.BothModes :=
    and_congr hq.st hq.mm
  have hinduce : ∀ parse, NlaParseIn true parse → ∀ pid family s,
      xnlErrInduce (parse (sendErrCmd pid family
        { vf := vf, ifIdx := ifIdx, qparm := q, err := errWords l.errs })) s
      = if q.flags.getLsbD 0 = true ∧ q.flags.getLsbD 1 = true then none
        else some (inducedErrs l.errs s) :=
    fun parse hp pid family s => errInduce_parsed hp pid family hif hq.idx s
  constructor
  · intro hr
    refine ⟨hall, ?_⟩
    by_cases hmodes : l.BothModes
    · exact .inl hmodes
    · refine .inr ((induced_iff hall).mp fun s => ?_)
      apply hr.asked _ hparse _ (readAttrsIn_parse true) 0 0 s
      rw [hinduce _ (readAttrsIn_parse true)]
      exact if_neg fun hb => hmodes (hboth.mp hb)
  · rintro ⟨-, hfit⟩
    refine ⟨?_, ?_⟩
    · intro x hx parse hp pid family s s' hs
      rw [hparse] at hx
      obtain rfl := Except.ok.inj hx
      rw [hinduce parse hp] at hs
      by_cases hb : q.flags.getLsbD 0 = true ∧ q.flags.getLsbD 1 = true
      · rw [if_pos hb] at hs
        exact nomatch hs
      · rw [if_neg hb] at hs
        obtain rfl := Option.some.inj hs
        exact (induced_iff hall).mpr (hfit.resolve_left fun hm => hb (hboth.mpr hm)) s
    · rw [hparse]
      exact fun herr => nomatch herr

/-- **When the errors that are induced are the named ones**: a line that is accepted is in order,
and so is every line that would be accepted but for a name. -/
theorem induced_errs_iff (p w : String) (rest : List String) :
    (∀ x, parseErrCmd (p :: w :: "q" :: "err" :: rest) = .ok x →
      ∃ l : ErrLine, l.InOrder ∧ l.argv = p :: w :: "q" :: "err" :: rest) ∧
    ∀ l : ErrLine, l.InOrder → l.argv = p :: w :: "q" :: "err" :: rest → (RightErrs l ↔ l.Fits) :=
  ⟨fun _ => accepted_line, fun _ h _ => rightErrs_iff h⟩

/-- A line with a list of errors. -/
def errLine (errs : List (String × String)) : ErrLine where
  p := "dmactl"
  w := "qdma0"
  opts := [.idx "3" (toString errs.length) errs, .other (.dir "h2c")]
  help := none

/-- It is in order. -/
theorem errLine_inOrder {errs : List (String × String)}
    (hn : Readable (toString errs.length) ∧ wordVal (toString errs.length) = errs.length)
    (hlen : errs.length ≤ qdmaErrs) (hread : ∀ p ∈ errs, Readable p.2) :
    (errLine errs).InOrder where
  device := by
    rw [show parseIfname (errLine errs).w = some (false, 0) by
      show parseIfname "qdma0" = _
      decide]
    exact Option.some_ne_none _
  opts := by
    intro o ho
    rcases List.mem_cons.mp ho with rfl | ho
    · exact ⟨by decide, hn.1, hn.2, hlen, hread⟩
    · rw [List.mem_singleton.mp ho]
      exact ⟨show dirFlag "h2c" ≠ none by decide, fun w => nofun⟩
  given _ := ⟨_, _, _, List.mem_cons_self⟩

/-- Two errors in their places. -/
theorem induced_errs_placed : RightErrs (errLine [("err_trq", "1"), ("dma", "0")]) := by
  apply ((induced_errs_iff _ _ _).2 _ (errLine_inOrder (by decide) (by decide) (by decide))
    rfl).mpr
  refine ⟨by decide, .inr ⟨by decide, fun e he => ?_⟩⟩
  have hname : e.name = "err_trq" := by
    rcases List.mem_cons.mp he with h | h
    · exact (Prod.mk.inj h).1
    · exact absurd (Prod.mk.inj (List.mem_singleton.mp h)).2 (by decide)
  obtain rfl : e = .errTrq := name_inj hname
  rfl

/-- **Three lines that go wrong**: a name with the bit of another error, a name that leads behind
the table, and an error that cannot be switched off. -/
theorem induced_errs_misplaced :
    (inducedErrs [("qid_range", true)] 0 = 1#64 <<< QdmaErrIdx.unmapped.ctorIdx ∧
      ¬ RightErrs (errLine [("qid_range", "1")])) ∧
    (parseErrCmd (errLine [("flr_cancel", "1")]).argv = .error .nullName ∧
      ¬ RightErrs (errLine [("flr_cancel", "1")])) ∧
    ¬ RightErrs (errLine [("dma", "1"), ("dma", "0")]) := by
  have hnot : ∀ {errs : List (String × String)},
      (Readable (toString errs.length) ∧ wordVal (toString errs.length) = errs.length) →
      errs.length ≤ qdmaErrs → (∀ p ∈ errs, Readable p.2) → ¬ (errLine errs).Fits →
      ¬ RightErrs (errLine errs) := fun hn hlen hread hno hr =>
    hno ((rightErrs_iff (errLine_inOrder hn hlen hread)).mp hr)
  have hmodes : ∀ errs, ¬ (errLine errs).BothModes := by
    rintro errs ⟨hst, -⟩
    rcases List.mem_cons.mp hst with h | h
    · exact nomatch h
    · exact nomatch List.mem_singleton.mp h
  refine ⟨⟨by decide +kernel, hnot (by decide) (by decide) (by decide) ?_⟩, ⟨?_, ?_⟩, ?_⟩
  · intro hfits
    have hplaced := (hfits.fit.resolve_left (hmodes _)).placed
    exact hplaced _ List.mem_cons_self .qidRange (by decide) rfl
  · exact (parseErrCmd_line (errLine_inOrder (by decide) (by decide) (by decide))).2
      ⟨_, List.mem_cons_self, by decide⟩
  · refine hnot (by decide) (by decide) (by decide) fun hfits => ?_
    exact absurd (hfits.known _ List.mem_cons_self) (by decide)
  · refine hnot (by decide) (by decide) (by decide) fun hfits => ?_
    have hstays := (hfits.fit.resolve_left (hmodes _)).stays .dma List.mem_cons_self
    exact absurd hstays (by decide)

end Qdma
