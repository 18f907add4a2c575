/-
# Options with an index

The options of `q start` that choose an entry of a register table: a ring size, a buffer size, a
timer, a counter, and the size of a completion entry.  `index_option_iff` says which strings behind
such an option are taken for what they are: numbers are cut to a byte before they are checked, the
empty string and signs are read, and `wrbsz` has a reader of its own.
-/
import Qdma.Literals
import Qdma.StartCmd

namespace Qdma

/-! ## A list of options is read -/

section Read

variable {argv : List String} {i : ℕ}

/-- The word at the cursor, and what is behind it. -/
theorem argAt_of_drop {w : String} {t : List String} (h : argv.drop i = w :: t) :
    i < argv.length ∧ argAt argv i = .ok w ∧ argv.drop (i + 1) = t := by
  have hlt : i < argv.length := by
    by_contra hge
    rw [List.drop_eq_nil_of_le (Nat.not_lt.mp hge)] at h
    exact nomatch h
  obtain ⟨w', hw, -, hdrop⟩ := argAt_of_lt hlt
  obtain ⟨rfl, htail⟩ := List.cons.inj (hdrop.symm.trans h)
  exact ⟨hlt, hw, htail⟩

theorem getNextArg_of_drop {k w : String} {t : List String} (h : argv.drop i = k :: w :: t) :
    getNextArg argv i = .ok (i + 1) := by
  have hlt := (argAt_of_drop (argAt_of_drop h).2.2).1
  unfold getNextArg
  rw [if_neg (by omega)]

theorem readInt_ok {w : String} (hw : Readable w) : readInt w = .ok (wordVal w) := by
  show (if (argReadInt w.toList).1 < 0 then Except.error (.ret (argReadInt w.toList).1)
    else Except.ok (argReadInt w.toList).2 : Parse ℕ) = _
  rw [show (argReadInt w.toList).1 = 0 from hw, if_neg (lt_irrefl (0 : ℤ))]
  rfl

theorem nextInt_of_drop {k w : String} {t : List String} (h : argv.drop i = k :: w :: t)
    (hw : Readable w) : nextInt argv i = .ok (i + 1, wordVal w) := by
  obtain ⟨-, hat, -⟩ := argAt_of_drop (argAt_of_drop h).2.2
  unfold nextInt
  rw [getNextArg_of_drop h, ok_bind, hat, ok_bind, readInt_ok hw]
  rfl

theorem readNumber_of_drop {k w : String} {t : List String} (h : argv.drop i = k :: w :: t)
    (hw : Readable w) (q : XcmdQParm) (f : BitVec 32) (p : QParmType)
    (store : XcmdQParm → ℕ → XcmdQParm) :
    readNumber argv i q f p store = .ok (i + 2, store q (wordVal w), f ||| p.bit) := by
  unfold readNumber
  rw [nextInt_of_drop h hw]
  rfl

theorem readWord_of_drop {α : Type} {k w : String} {t : List String}
    (h : argv.drop i = k :: w :: t) {kind : String → Option α} {a : α} (ha : kind w = some a)
    (q : XcmdQParm) (f : BitVec 32) (p : QParmType) (store : XcmdQParm → α → XcmdQParm) :
    readWord argv i q f p kind store = .ok (i + 2, store q a, f ||| p.bit) := by
  obtain ⟨-, hat, -⟩ := argAt_of_drop (argAt_of_drop h).2.2
  unfold readWord
  rw [getNextArg_of_drop h, ok_bind, hat, ok_bind, ha]

theorem readRangeParm_of_drop {k a b : String} {t : List String}
    (h : argv.drop i = k :: a :: b :: t) (ha : Readable a) (hb : Readable b) (q : XcmdQParm)
    (f : BitVec 32) (p : QParmType) : readRangeParm argv i q f p
      = .ok (i + 3, { q with rangeStart := wordVal a, rangeEnd := wordVal b }, f ||| p.bit) := by
  have h1 := (argAt_of_drop h).2.2
  obtain ⟨-, hat, h2⟩ := argAt_of_drop h1
  obtain ⟨-, hat', -⟩ := argAt_of_drop h2
  unfold readRangeParm readRange
  rw [getNextArg_of_drop h, ok_bind, hat, ok_bind, readInt_ok ha, ok_bind, getNextArg_of_drop h1,
    ok_bind, hat', ok_bind, readInt_ok hb]
  rfl

/-- **An option is read**, if its numbers are numbers and its names are known. -/
theorem readQparmStep_of_drop {o : QOpt} (hok : o.Ok) {t : List String}
    (h : argv.drop i = o.words ++ t) (s : XcmdQParm × BitVec 32) :
    readQparmStep argv i s.1 s.2 = .ok (i + o.words.length, o.apply s) := by
  unfold readQparmStep
  cases o with
  | idx w =>
      rw [(argAt_of_drop h).2.1, ok_bind, if_pos rfl]
      exact readNumber_of_drop h hok _ _ _ _
  | list w n =>
      rw [(argAt_of_drop h).2.1, ok_bind]
      simp only [String.reduceEq, reduceIte]
      rw [nextInt_of_drop h hok.1, ok_bind]
      exact readNumber_of_drop (argAt_of_drop h).2.2 hok.2 _ _ _ _
  | mode w =>
      obtain ⟨a, ha⟩ := Option.ne_none_iff_exists'.mp hok
      rw [(argAt_of_drop h).2.1, ok_bind]
      simp only [String.reduceEq, reduceIte]
      rw [readWord_of_drop h ha]
      simp [QOpt.words, QOpt.apply, QOpt.enter, QOpt.bit, ha]
  | dir w =>
      obtain ⟨a, ha⟩ := Option.ne_none_iff_exists'.mp hok
      rw [(argAt_of_drop h).2.1, ok_bind]
      simp only [String.reduceEq, reduceIte]
      rw [readWord_of_drop h ha]
      simp [QOpt.words, QOpt.apply, QOpt.enter, QOpt.bit, ha]
  | size p w =>
      rw [(argAt_of_drop h).2.1, ok_bind]
      cases p <;> simp only [SizeParm.name, String.reduceEq, reduceIte] <;>
        exact readNumber_of_drop h hok _ _ _ _
  | trigmode w =>
      obtain ⟨a, ha⟩ := Option.ne_none_iff_exists'.mp hok
      rw [(argAt_of_drop h).2.1, ok_bind]
      simp only [String.reduceEq, reduceIte]
      rw [readWord_of_drop h ha]
      simp [QOpt.words, QOpt.apply, QOpt.enter, QOpt.bit, ha]
  | desc a b =>
      rw [(argAt_of_drop h).2.1, ok_bind]
      simp only [String.reduceEq, reduceIte]
      exact readRangeParm_of_drop h hok.1 hok.2 _ _ _
  | wrb a b =>
      rw [(argAt_of_drop h).2.1, ok_bind]
      simp only [String.reduceEq, reduceIte]
      exact readRangeParm_of_drop h hok.1 hok.2 _ _ _
  | wrbsz w =>
      rw [(argAt_of_drop h).2.1, ok_bind]
      simp only [String.reduceEq, reduceIte]
      exact readWord_of_drop h rfl _ _ _ _
  | flag f =>
      rw [(argAt_of_drop h).2.1, ok_bind]
      cases f <;>
        simp [QOpt.words, FlagParm.name, QOpt.apply, QOpt.enter, QOpt.bit, FlagParm.isDis,
          FlagParm.flag]

theorem length_words_pos (o : QOpt) : 0 < o.words.length := by
  obtain ⟨k, args, hwords, -⟩ := words_arity o
  rw [hwords]
  exact Nat.succ_pos _

/-- **The loop reads a list of options.** -/
theorem readQparmLoop_of_drop {opts : List QOpt} (hok : ∀ o ∈ opts, QOpt.Ok o) {fuel : ℕ}
    {s : XcmdQParm × BitVec 32} (h : argv.drop i = opts.flatMap QOpt.words)
    (hfuel : argv.length < i + fuel) (hi : i ≤ argv.length) :
    readQparmLoop argv fuel i s.1 s.2 = .ok (opts.foldl QOpt.apply s) := by
  induction opts generalizing i s fuel with
  | nil =>
      have hlen := congrArg List.length h
      rw [List.length_drop, List.flatMap_nil, List.length_nil] at hlen
      cases fuel with
      | zero => omega
      | succ fuel =>
          unfold readQparmLoop
          rw [if_neg (by omega)]
          rfl
  | cons o opts ih =>
      rw [List.flatMap_cons] at h
      have hpos := length_words_pos o
      have hlen := congrArg List.length h
      rw [List.length_drop, List.length_append] at hlen
      have hrest : argv.drop (i + o.words.length) = opts.flatMap QOpt.words := by
        rw [← List.drop_drop, h, List.drop_left]
      cases fuel with
      | zero => omega
      | succ fuel =>
          unfold readQparmLoop
          rw [if_pos (by omega), readQparmStep_of_drop (hok o List.mem_cons_self) h, ok_bind]
          have hfuel' : argv.length < i + o.words.length + fuel := by omega
          have hloop := ih (s := o.apply s) (fun o' ho' => hok o' (List.mem_cons_of_mem _ ho'))
            hrest hfuel' (by omega)
          exact hloop

/-- **`read_qparm` accepts** a list of options just when each is in order and what is required is
there. -/
theorem readQparm_iff {opts : List QOpt} (h : argv.drop i = opts.flatMap QOpt.words)
    (hi : i ≤ argv.length) {q q' : XcmdQParm} {required : BitVec 32} :
    readQparm argv i q required = .ok q' ↔ (∀ o ∈ opts, QOpt.Ok o) ∧
      (enterAll opts q).2 &&& required = required ∧
      q' = finishQparm (enterAll opts q).1 (enterAll opts q).2 := by
  constructor
  · intro hread
    rcases readQparm_spec hi q required with herr | ⟨opts', hoks, hwords, hreq, hok⟩
    · rw [herr] at hread
      exact nomatch hread
    · obtain rfl := flatMap_words_inj (h.symm.trans hwords)
      rw [hok] at hread
      exact ⟨hoks, hreq, (Except.ok.inj hread).symm⟩
  · rintro ⟨hoks, hreq, rfl⟩
    unfold readQparm
    rw [readQparmLoop_of_drop (s := ({ q with idx := xnlQidxInvalid }, 0)) hoks h (by omega) hi,
      ok_bind]
    exact if_neg (not_not.mpr hreq)

end Read

/-! ## The law -/

/-- An option with an index. -/
inductive IndexOpt where
  | size (t : SizeParm)
  | wrbsz
  deriving DecidableEq

/-- It as an option. -/
def IndexOpt.opt : IndexOpt → String → QOpt
  | .size t, w => .size t w
  | .wrbsz, w => .wrbsz w

/-- The largest index. -/
def IndexOpt.max : IndexOpt → ℕ
  | .size _ => 15
  | .wrbsz => 3

/-- Its value. -/
def IndexOpt.get (q : XcmdQParm) : IndexOpt → ℕ
  | .size t => t.get q
  | .wrbsz => q.wrbEntrySize

/-- It is set. -/
def IndexOpt.set (q : XcmdQParm) (v : ℕ) : IndexOpt → XcmdQParm
  | .size t => t.set q v
  | .wrbsz => { q with wrbEntrySize := v }

/-- A line of `q start` with the option `k` among others. -/
def indexLine (p w : String) (before : List QOpt) (k : IndexOpt) (after : List QOpt) (s : String) :
    List String :=
  p :: w :: "q" :: "start" :: (before ++ k.opt s :: after).flatMap QOpt.words

/-- The line is accepted. -/
def Accepted (argv : List String) : Prop := ∃ r, parseCmd argv {} = .ok r

/-- Everything else on the line is in order: the option is the last of its kind, and the line is
accepted with every index up to the largest. -/
structure RestInOrder (p w : String) (before : List QOpt) (k : IndexOpt) (after : List QOpt) :
    Prop where
  last : ∀ s, k.opt s ∉ after
  rest : ∀ v ≤ k.max, Accepted (indexLine p w before k after (toString v))

/-- **A string is taken for what it is**: the line is accepted just with a literal in the range,
and then its value is stored. -/
structure RightIndex (line : String → List String) (k : IndexOpt) (s : String) : Prop where
  accepted : Accepted (line s) ↔ ∃ v ≤ k.max, literalVal s.toList = some v
  stored : ∀ r, parseCmd (line s) {} = .ok r → literalVal s.toList = some (k.get r.1.qparm)

/-- The digits that `sscanf` reads. -/
def decPart (s : List Char) : List Char := (unsignedPart s).takeWhile (isDigitOf 10)

/-- **When it is.**  An index of 16 entries: it is not empty, and if it is a literal, maybe with
blanks and a sign, then a plain one up to 15, or its last byte is above.  A completion size, where
`prior` has been given before: a literal up to 3 is decimal or octal, or 0; of anything else the
last byte of the decimal number at its front is above 3, or `prior` if there is none. -/
def IndexFits (prior : ℕ) (s : List Char) : IndexOpt → Prop
  | .size _ => s ≠ [] ∧ ∀ v, literalVal (unsignedPart s) = some v →
      (literalVal s = some v ∧ v ≤ 15) ∨ 15 < longVal (hasMinus s) v % 256
  | .wrbsz =>
      if (literalVal s).any (fun v => decide (v ≤ 3)) = true then
        s.all (isDigitOf 10) = true ∨ literalVal s = some 0
      else if decPart s = [] then 3 < prior
      else 3 < longVal (hasMinus s) (ofDigits 10 (decPart s)) % 256

/-! ## A line of `q start` -/

section Line

variable {p w : String} {opts : List QOpt}

/-- **A line of `q start` is accepted** just when its options are in order. -/
theorem parseCmd_start_iff {vf : Bool} {ifIdx : ℕ} (hdev : w ≠ "dev")
    (hname : parseIfname w = some (vf, ifIdx)) (xcmd : XcmdInfo) (r : XcmdInfo × ℕ) :
    parseCmd (p :: w :: "q" :: "start" :: opts.flatMap QOpt.words) xcmd = .ok r ↔
      (∀ o ∈ opts, QOpt.Ok o) ∧
        (enterAll opts {}).2 &&& QParmType.idx.bit = QParmType.idx.bit ∧
        validateStart (startQparm opts) = 0 ∧
        r = ({ vf := vf, ifIdx := ifIdx, op := .qStart, qparm := startQparm opts },
          4 + (opts.flatMap QOpt.words).length) := by
  rw [parseCmd_family hdev, hname]
  simp only
  unfold parseFamily
  rw [if_neg (by decide), if_pos rfl]
  unfold parseQCmd
  rw [show argAt (p :: w :: "q" :: "start" :: opts.flatMap QOpt.words) 3 = .ok "start" from rfl,
    ok_bind, if_neg (by decide)]
  have hwords : readQWords (p :: w :: "q" :: "start" :: opts.flatMap QOpt.words) 3 "start" {}
      = (do
        let i ← getNextArg (p :: w :: "q" :: "start" :: opts.flatMap QOpt.words) 3
        let q ← readQparm (p :: w :: "q" :: "start" :: opts.flatMap QOpt.words) i {}
          QParmType.idx.bit
        .ok (.qStart, startDefaults q)) := rfl
  rw [hwords]
  generalize hargv : p :: w :: "q" :: "start" :: opts.flatMap QOpt.words = argv
  have hlen : argv.length = 4 + (opts.flatMap QOpt.words).length := by
    rw [← hargv]
    simp only [List.length_cons]
    omega
  have hdrop : argv.drop 4 = opts.flatMap QOpt.words := by
    rw [← hargv]
    rfl
  rw [← hlen]
  by_cases hnil : opts.flatMap QOpt.words = []
  · -- nothing follows `start`
    have hopts : opts = [] := flatMap_words_inj (hnil.trans List.flatMap_nil.symm)
    subst hopts
    subst hargv
    exact iff_of_false (fun h => nomatch h) fun h => absurd h.2.1 (by decide)
  have hpos := List.length_pos_iff.mpr hnil
  have hnext : getNextArg argv 3 = .ok 4 := by
    unfold getNextArg
    rw [if_neg (by omega)]
  rw [hnext, ok_bind]
  cases hread : readQparm argv 4 {} QParmType.idx.bit with
  | error e =>
      refine iff_of_false (fun h => nomatch h) fun h => ?_
      rw [(readQparm_iff hdrop (by omega)).mpr ⟨h.1, h.2.1, rfl⟩] at hread
      exact nomatch hread
  | ok q =>
      obtain ⟨hoks, hreq, rfl⟩ := (readQparm_iff hdrop (by omega)).mp hread
      show ((if validateStart (startQparm opts) = 0 then
          .ok ({ vf := vf, ifIdx := ifIdx, op := .qStart, qparm := startQparm opts }, argv.length)
        else .error (.ret (validateStart (startQparm opts))) : Parse (XcmdInfo × ℕ)) >>= fun r =>
          parseDone argv r) = .ok r ↔ _
      by_cases hv : validateStart (startQparm opts) = 0
      · rw [if_pos hv, ok_bind]
        have hdone : ∀ x, parseDone argv (x, argv.length) = .ok (x, argv.length) :=
          fun x => if_neg (lt_irrefl _)
        rw [hdone, Except.ok.injEq]
        constructor
        · intro h
          exact ⟨hoks, hreq, hv, h.symm⟩
        · exact fun h => h.2.2.2.symm
      · rw [if_neg hv]
        exact iff_of_false (fun h => nomatch h) fun h => hv h.2.2.1

end Line

/-! ## One option of a line -/

/-- What the option stores, where the completion size was `prior`. -/
def IndexOpt.entered (prior : ℕ) (s : String) : IndexOpt → ℕ
  | .size _ => wordVal s % 256
  | .wrbsz => sscanfHhu s.toList prior

section Option

variable {k : IndexOpt} {before after : List QOpt}

theorem enter_opt (q : XcmdQParm) (s : String) :
    (k.opt s).enter q = k.set q (k.entered q.wrbEntrySize s) := by
  cases k <;> rfl

theorem get_set (q : XcmdQParm) (v : ℕ) : k.get (k.set q v) = v := by
  cases k with
  | size t => cases t <;> rfl
  | wrbsz => rfl

/-- The flags stay. -/
theorem set_flags (q : XcmdQParm) (v : ℕ) :
    (k.set q v).flags = q.flags ∧ (k.set q v).sflags = q.sflags := by
  cases k with
  | size t => cases t <;> exact ⟨rfl, rfl⟩
  | wrbsz => exact ⟨rfl, rfl⟩

/-- Another option does not touch it. -/
theorem enter_set {o : QOpt} (ho : ∀ s, k.opt s ≠ o) (q : XcmdQParm) (v : ℕ) :
    o.enter (k.set q v) = k.set (o.enter q) v := by
  cases k with
  | wrbsz =>
      cases o with
      | size t' w => cases t' <;> rfl
      | wrbsz w => exact absurd rfl (ho w)
      | flag f => cases f <;> rfl
      | _ => rfl
  | size t =>
      cases o with
      | size t' w =>
          have hne : t ≠ t' := by
            rintro rfl
            exact ho w rfl
          cases t <;> cases t' <;> first | rfl | exact absurd rfl hne
      | flag f => cases t <;> cases f <;> rfl
      | _ => cases t <;> rfl

theorem foldl_set (h : ∀ s, k.opt s ∉ after) (q : XcmdQParm) (f : BitVec 32) (v : ℕ) :
    after.foldl QOpt.apply (k.set q v, f) = (k.set (after.foldl QOpt.apply (q, f)).1 v,
      (after.foldl QOpt.apply (q, f)).2) := by
  induction after generalizing q f with
  | nil => rfl
  | cons o after ih =>
      have ho : ∀ s, k.opt s ≠ o := fun s hs => h s (hs ▸ List.mem_cons_self)
      have happly : QOpt.apply (k.set q v, f) o = (k.set (o.enter q) v, f ||| o.bit) :=
        Prod.ext (enter_set ho q v) rfl
      rw [List.foldl_cons, List.foldl_cons, happly]
      exact ih (fun s hs => h s (List.mem_cons_of_mem _ hs)) _ _

theorem finishQparm_set_index (q : XcmdQParm) (f : BitVec 32) (v : ℕ) :
    finishQparm (k.set q v) f = k.set (finishQparm q f) v := by
  unfold finishQparm
  cases k with
  | size t => cases t <;> split_ifs <;> rfl
  | wrbsz => split_ifs <;> rfl

theorem startDefaults_set {q : XcmdQParm} (h : k = .wrbsz → q.sflags &&& QParmType.wrbsz.bit ≠ 0)
    (v : ℕ) : startDefaults (k.set q v) = k.set (startDefaults q) v := by
  rw [startDefaults_eq, startDefaults_eq, (set_flags q v).1, (set_flags q v).2]
  cases k with
  | size t => cases t <;> split_ifs <;> rfl
  | wrbsz =>
      rw [if_neg (fun hd => h rfl hd.2), if_neg (fun hd => h rfl hd.2)]
      rfl

/-- **The parameters with one option left open.** -/
theorem startQparm_index (h : ∀ s, k.opt s ∉ after) : ∃ q, ∀ s,
    startQparm (before ++ k.opt s :: after)
      = k.set q (k.entered (enterAll before {}).1.wrbEntrySize s) := by
  rcases hbefore : enterAll before {} with ⟨q₀, f₀⟩
  have hbit : ∀ s, (k.opt s).bit = (k.opt "").bit := fun s => by cases k <;> rfl
  refine ⟨startDefaults (finishQparm (after.foldl QOpt.apply (q₀, f₀ ||| (k.opt "").bit)).1
    (after.foldl QOpt.apply (q₀, f₀ ||| (k.opt "").bit)).2), fun s => ?_⟩
  have hall : enterAll (before ++ k.opt s :: after) {}
      = (k.set (after.foldl QOpt.apply (q₀, f₀ ||| (k.opt "").bit)).1
          (k.entered q₀.wrbEntrySize s),
        (after.foldl QOpt.apply (q₀, f₀ ||| (k.opt "").bit)).2) := by
    rw [← foldl_set h, ← enter_opt, ← hbit s]
    unfold enterAll
    rw [List.foldl_append, List.foldl_cons]
    show after.foldl QOpt.apply (QOpt.apply (enterAll before {}) (k.opt s)) = _
    rw [hbefore]
    rfl
  unfold startQparm
  rw [hall, finishQparm_set_index]
  apply startDefaults_set
  rintro rfl
  -- the completion size is given
  apply (finishQparm_other _ _).2.2.2.2.2 .wrbsz (by decide) |>.mpr
  rw [bit_iff]
  have hset := (enterAll_sflag (k := 5) (before ++ IndexOpt.wrbsz.opt s :: after)).mpr
    ⟨_, List.mem_append_right _ List.mem_cons_self,
      show QParmType.wrbsz.bit.getLsbD 5 = true by decide⟩
  rw [hall] at hset
  exact hset

/-- What `validate_qcmd` asks of a started queue. -/
theorem validateStart_iff (q : XcmdQParm) : validateStart q = 0 ↔
    (∀ t : SizeParm, t.get q ≤ 15) ∧ q.wrbEntrySize ≤ 3 ∧ (q.flags &&& xnlFCmplUddEn ≠ 0 →
      q.sflags &&& QParmType.wrbsz.bit ≠ 0 ∧ q.wrbEntrySize ≠ 3) := by
  have hsizes : (!isSizeIdxValid q.c2hBufszIdx || !isSizeIdxValid q.qrngszIdx ||
      !isSizeIdxValid q.wrbCntrIdx || !isSizeIdxValid q.wrbTmrIdx ||
      decide (q.wrbEntrySize > xnlStC2hWrbDescSizeRsvd)) = true ↔
      ¬ ((∀ t : SizeParm, t.get q ≤ 15) ∧ q.wrbEntrySize ≤ 3) := by
    have hget : (∀ t : SizeParm, t.get q ≤ 15) ↔ q.c2hBufszIdx ≤ 15 ∧ q.qrngszIdx ≤ 15 ∧
        q.wrbCntrIdx ≤ 15 ∧ q.wrbTmrIdx ≤ 15 := by
      refine ⟨fun h => ⟨h .bufsz, h .ringsz, h .cntr, h .tmr⟩, fun h t => ?_⟩
      cases t with
      | bufsz => exact h.1
      | ringsz => exact h.2.1
      | cntr => exact h.2.2.1
      | tmr => exact h.2.2.2
    rw [hget]
    simp [isSizeIdxValid, xnlStC2hWrbDescSizeRsvd]
    omega
  unfold validateStart
  by_cases hbad : (!isSizeIdxValid q.c2hBufszIdx || !isSizeIdxValid q.qrngszIdx ||
      !isSizeIdxValid q.wrbCntrIdx || !isSizeIdxValid q.wrbTmrIdx ||
      decide (q.wrbEntrySize > xnlStC2hWrbDescSizeRsvd)) = true
  · rw [if_pos hbad]
    exact iff_of_false (by decide) fun h => hsizes.mp hbad ⟨h.1, h.2.1⟩
  rw [if_neg hbad]
  obtain ⟨hget, hsz⟩ := not_not.mp (fun h => hbad (hsizes.mpr h))
  by_cases hudd : q.flags &&& xnlFCmplUddEn ≠ 0
  · rw [if_pos hudd]
    split_ifs with hset hrsvd
    · exact iff_of_false (by decide) fun h => (h.2.2 hudd).1 hset
    · exact iff_of_false (by decide) fun h => (h.2.2 hudd).2 hrsvd
    · exact iff_of_true rfl ⟨hget, hsz, fun _ => ⟨hset, hrsvd⟩⟩
  · rw [if_neg hudd]
    exact iff_of_true rfl ⟨hget, hsz, fun h => absurd h hudd⟩

/-- **The range of an index**, with everything else in order. -/
theorem validate_set {q : XcmdQParm} (h : ∀ v ≤ k.max, validateStart (k.set q v) = 0) (v : ℕ) :
    validateStart (k.set q v) = 0 ↔ v ≤ k.max := by
  refine ⟨fun hv => ?_, h v⟩
  obtain ⟨hget, hsz, -⟩ := (validateStart_iff _).mp hv
  cases k with
  | size t =>
      have hle := hget t
      rwa [show t.get (IndexOpt.set q v (.size t)) = v from get_set (k := .size t) q v] at hle
  | wrbsz => exact hsz

/-- The numbers up to the largest index are read as they are written. -/
theorem entered_toString (prior : ℕ) {v : ℕ} (hv : v ≤ k.max) :
    k.entered prior (toString v) = v := by
  have hsize : ∀ v ≤ 15, wordVal (toString v) % 256 = v := by decide
  have hscan : ∀ v ≤ 3, (scanNumber 10 (toString v).toList).map Prod.fst = some v := by decide
  cases k with
  | size t => exact hsize v hv
  | wrbsz =>
      have hsome := hscan v hv
      show sscanfHhu (toString v).toList prior = v
      unfold sscanfHhu
      cases hnum : scanNumber 10 (toString v).toList with
      | none =>
          rw [hnum] at hsome
          exact nomatch hsome
      | some a =>
          rw [hnum] at hsome
          have ha : a.1 = v := Option.some.inj hsome
          have hle : v ≤ 3 := hv
          show a.1 % 256 = v
          omega

/-- A device is named. -/
theorem RestInOrder.device {p w : String} (h : RestInOrder p w before k after) :
    w ≠ "dev" ∧ ∃ vf ifIdx, parseIfname w = some (vf, ifIdx) := by
  obtain ⟨r₀, h₀⟩ := h.rest 0 (Nat.zero_le _)
  have hdev : w ≠ "dev" := by
    rintro rfl
    have hsafe : SafeParse (indexLine p "dev" before k after (toString 0))
      (parseCmd (indexLine p "dev" before k after (toString 0)) {}) := parseCmd_dev_safe {}
    rw [h₀] at hsafe
    have hfill : r₀.1.op = .devList ∧ "q" :: "start" :: _ = ["list"] := hsafe.2
    exact absurd (List.cons.inj hfill.2).1 (by decide)
  refine ⟨hdev, ?_⟩
  cases hname : parseIfname w with
  | some d => exact ⟨d.1, d.2, rfl⟩
  | none =>
      unfold indexLine at h₀
      rw [parseCmd_family hdev, hname] at h₀
      exact nomatch h₀

/-- The string plays no part in which parameters are given. -/
theorem index_bits (s s' : String) : (enterAll (before ++ k.opt s :: after) {}).2
    = (enterAll (before ++ k.opt s' :: after) {}).2 := by
  unfold enterAll
  rw [foldl_bits, foldl_bits, List.map_append, List.map_append, List.map_cons, List.map_cons,
    show (k.opt s).bit = (k.opt s').bit by cases k <;> rfl]

/-- Nor in whether the others are in order. -/
theorem index_ok {s' : String} (hoks : ∀ o ∈ before ++ k.opt s' :: after, QOpt.Ok o) (s : String) :
    (∀ o ∈ before ++ k.opt s :: after, QOpt.Ok o) ↔ (k.opt s).Ok := by
  refine ⟨fun hall => hall _ (List.mem_append_right _ List.mem_cons_self), fun hs o ho => ?_⟩
  rcases List.mem_append.mp ho with ho | ho
  · exact hoks o (List.mem_append_left _ ho)
  · rcases List.mem_cons.mp ho with rfl | ho
    · exact hs
    · exact hoks o (List.mem_append_right _ (List.mem_cons_of_mem _ ho))

/-- **Which strings are accepted**, and what is stored. -/
theorem indexLine_iff {p w : String} (h : RestInOrder p w before k after) (s : String) :
    (Accepted (indexLine p w before k after s) ↔
      (k.opt s).Ok ∧ k.entered (enterAll before {}).1.wrbEntrySize s ≤ k.max) ∧
      ∀ r, parseCmd (indexLine p w before k after s) {} = .ok r →
        k.get r.1.qparm = k.entered (enterAll before {}).1.wrbEntrySize s := by
  obtain ⟨q, hq⟩ : ∃ q, ∀ s, startQparm (before ++ k.opt s :: after)
      = k.set q (k.entered (enterAll before {}).1.wrbEntrySize s) := startQparm_index h.last
  obtain ⟨hdev, vf, ifIdx, hname⟩ := h.device
  have hparse : ∀ s r, parseCmd (indexLine p w before k after s) {} = .ok r ↔ _ :=
    fun s => parseCmd_start_iff (p := p) hdev hname {}
  obtain ⟨r₀, h₀⟩ := h.rest 0 (Nat.zero_le _)
  obtain ⟨hoks, hreq, -, -⟩ := (hparse _ _).mp h₀
  have hrange : ∀ v, validateStart (k.set q v) = 0 ↔ v ≤ k.max := by
    apply validate_set
    intro v hv
    obtain ⟨r, hr⟩ := h.rest v hv
    have hvalid := ((hparse _ _).mp hr).2.2.1
    rwa [hq, entered_toString _ hv] at hvalid
  constructor
  · constructor
    · rintro ⟨r, hr⟩
      obtain ⟨hall, -, hvalid, -⟩ := (hparse _ _).mp hr
      rw [hq] at hvalid
      exact ⟨(index_ok hoks s).mp hall, (hrange _).mp hvalid⟩
    · rintro ⟨hs, hle⟩
      refine ⟨_, (hparse _ _).mpr ⟨(index_ok hoks s).mpr hs, ?_, ?_, rfl⟩⟩
      · rw [index_bits s (toString 0)]
        exact hreq
      · rw [hq]
        exact (hrange _).mpr hle
  · intro r hr
    obtain ⟨-, -, -, rfl⟩ := (hparse _ _).mp hr
    show k.get (startQparm _) = _
    rw [hq, get_set]

end Option

/-! ## Strings -/

/-- A string is accepted with the value `e`, or refused; it is taken for what it is. -/
def TakenRight (ok : Prop) (e max : ℕ) (s : List Char) : Prop :=
  (ok ∧ e ≤ max ↔ ∃ v ≤ max, literalVal s = some v) ∧ (ok ∧ e ≤ max → literalVal s = some e)

/-- A literal in the range is to be accepted with its value. -/
theorem takenRight_some {ok : Prop} {e max v : ℕ} {s : List Char} (h : literalVal s = some v)
    (hv : v ≤ max) : TakenRight ok e max s ↔ ok ∧ e = v := by
  unfold TakenRight
  rw [h]
  constructor
  · rintro ⟨hacc, hval⟩
    have hok := hacc.mpr ⟨v, hv, rfl⟩
    exact ⟨hok.1, (Option.some.inj (hval hok)).symm⟩
  · rintro ⟨hok, rfl⟩
    exact ⟨iff_of_true ⟨hok, hv⟩ ⟨e, hv, rfl⟩, fun _ => rfl⟩

/-- Anything else is to be refused. -/
theorem takenRight_none {ok : Prop} {e max : ℕ} {s : List Char}
    (h : ¬ ∃ v ≤ max, literalVal s = some v) : TakenRight ok e max s ↔ ¬ (ok ∧ e ≤ max) := by
  unfold TakenRight
  refine ⟨fun hr hok => h (hr.1.mp hok), fun hno => ⟨iff_of_false hno h, fun hok => absurd hok hno⟩⟩

/-- The last byte of a number that is read to its end. -/
theorem wordVal_byte {w : String} {v : ℕ}
    (h : literalVal (unsignedPart w.toList) = some v) :
    wordVal w % 256 = longVal (hasMinus w.toList) v % 256 := by
  have hread : strtoul w.toList = (longVal (hasMinus w.toList) v, []) :=
    strtoul_whole.mpr (.inr ⟨v, h, rfl⟩)
  show u32 (strtoul w.toList).1 % 256 = _
  rw [hread]
  exact Nat.mod_mod_of_dvd _ (by decide)

theorem longVal_small {v : ℕ} (hv : v < 256) : longVal false v % 256 = v := by
  unfold longVal
  rw [if_neg (by omega), if_neg Bool.false_ne_true, Nat.mod_eq_of_lt hv]

/-- **The string of an index of 16 entries.** -/
theorem size_right (t : SizeParm) (prior : ℕ) (w : String) :
    TakenRight (Readable w) (wordVal w % 256) 15 w.toList ↔
      IndexFits prior w.toList (.size t) := by
  show _ ↔ w.toList ≠ [] ∧ _
  by_cases hnil : w.toList = []
  · -- nothing is read as 0
    have hval : wordVal w = 0 := by
      show u32 (strtoul w.toList).1 = 0
      rw [hnil]
      rfl
    rw [takenRight_none (by rw [hnil]; rintro ⟨v, -, h⟩; exact nomatch h)]
    refine iff_of_false (not_not.mpr ⟨readable_iff.mpr (.inl hnil), ?_⟩) fun h => h.1 hnil
    rw [hval]
    exact Nat.zero_le _
  cases hlit : literalVal (unsignedPart w.toList) with
  | none =>
      have hno : ¬ ∃ v ≤ 15, literalVal w.toList = some v := by
        rintro ⟨v, -, hv⟩
        rw [(literal_plain hv).1, hv] at hlit
        exact nomatch hlit
      rw [takenRight_none hno]
      refine iff_of_true (fun h => ?_) ⟨hnil, fun v hv => nomatch hv⟩
      rcases readable_iff.mp h.1 with hempty | ⟨v, hv⟩
      · exact hnil hempty
      · rw [hlit] at hv
        exact nomatch hv
  | some v =>
      have hok : Readable w := readable_iff.mpr (.inr ⟨v, hlit⟩)
      rw [wordVal_byte hlit]
      by_cases hsmall : literalVal w.toList = some v ∧ v ≤ 15
      · obtain ⟨hv, hle⟩ := hsmall
        rw [takenRight_some hv hle, (literal_plain hv).2, longVal_small (by omega)]
        refine iff_of_true ⟨hok, rfl⟩ ⟨hnil, fun v' hv' => .inl ?_⟩
        obtain rfl := Option.some.inj hv'
        exact ⟨hv, hle⟩
      · have hno : ¬ ∃ v' ≤ 15, literalVal w.toList = some v' := by
          rintro ⟨v', hle, hv'⟩
          rw [(literal_plain hv').1, hv'] at hlit
          obtain rfl := Option.some.inj hlit
          exact hsmall ⟨hv', hle⟩
        rw [takenRight_none hno]
        constructor
        · intro h
          refine ⟨hnil, fun v' hv' => .inr ?_⟩
          obtain rfl := Option.some.inj hv'
          exact Nat.not_le.mp fun hle => h ⟨hok, hle⟩
        · rintro ⟨-, hall⟩ ⟨-, hle⟩
          rcases hall v rfl with hplain | hgt
          · exact hsmall hplain
          · omega

/-- What `sscanf` reads with `%hhu`. -/
theorem sscanfHhu_eq (s : List Char) (prior : ℕ) : sscanfHhu s prior
    = if decPart s = [] then prior
      else longVal (hasMinus s) (ofDigits 10 (decPart s)) % 256 := by
  unfold sscanfHhu
  rw [scanNumber_eq]
  unfold decPart
  simp only [show ¬ (10 = 0) by decide, if_false]
  by_cases hnil : (unsignedPart s).takeWhile (isDigitOf 10) = []
  · rw [if_pos hnil, if_pos hnil]
  · rw [if_neg hnil, if_neg hnil]

/-- An octal digit is a decimal one. -/
theorem decimal_of_octal {ds : List Char} (h : ds.all (isDigitOf 8) = true) :
    ds.all (isDigitOf 10) = true := by
  rw [List.all_eq_true] at h ⊢
  intro c hc
  have hoct := h c hc
  unfold isDigitOf at hoct ⊢
  cases hv : digitVal c with
  | none =>
      rw [hv] at hoct
      exact nomatch hoct
  | some d =>
      rw [hv] at hoct
      exact decide_eq_true (by have := of_decide_eq_true hoct; omega)

/-- **A literal up to 7 read as a decimal number** is itself, unless it is hexadecimal; of that
only the 0 in front is read. -/
theorem literal_decimal {s : List Char} {v : ℕ} (h : literalVal s = some v) (hv : v < 8) :
    decPart s ≠ [] ∧
      ofDigits 10 (decPart s) = if s.all (isDigitOf 10) = true then v else 0 := by
  have hwhole : ∀ {s : List Char} {v : ℕ}, literalVal s = some v → s.all (isDigitOf 10) = true →
      decPart s = s := by
    intro s v h hall
    unfold decPart
    rw [(literal_plain h).1]
    exact List.takeWhile_eq_self_iff.mpr (List.all_eq_true.mp hall)
  by_cases hzero : s.head? = some '0'
  swap
  · have hdec := h
    rw [literalVal_ten hzero] at hdec
    obtain ⟨hne, hall, hval⟩ := digitsVal_iff.mp hdec
    rw [hwhole h hall, if_pos hall]
    exact ⟨hne, hval⟩
  obtain ⟨t, rfl⟩ := List.head?_eq_some_iff.mp hzero
  cases t with
  | nil =>
      obtain rfl : 0 = v := Option.some.inj h
      decide
  | cons x ds =>
      have hplain := (literal_plain h).1
      by_cases hx : x = 'x' ∨ x = 'X'
      · have hnox : isDigitOf 10 x = false := by rcases hx with rfl | rfl <;> rfl
        have hpart : decPart ('0' :: x :: ds) = ['0'] := by
          unfold decPart
          rw [hplain, List.takeWhile_cons_of_pos (by decide),
            List.takeWhile_cons_of_neg (by rw [hnox]; exact Bool.false_ne_true)]
        rw [hpart, if_neg (by simp [hnox])]
        decide
      · have hoct : digitsVal 8 (x :: ds) = some v := (if_neg hx).symm.trans h
        obtain ⟨-, hall, hval⟩ := digitsVal_iff.mp hoct
        have hdec : ('0' :: x :: ds).all (isDigitOf 10) = true :=
          decimal_of_octal hall
        rw [hwhole h hdec, if_pos hdec, ofDigits_zero]
        refine ⟨List.cons_ne_nil _ _, ?_⟩
        have hlt := decimal_lt_of_octal hall (by omega)
        rw [← (ofDigits_octal hall).2.1 hlt, hval]

/-- **The string of a completion size.** -/
theorem wrbsz_right (prior : ℕ) (w : String) :
    TakenRight True (sscanfHhu w.toList prior) 3 w.toList ↔ IndexFits prior w.toList .wrbsz := by
  rw [sscanfHhu_eq]
  unfold IndexFits
  by_cases hsmall : (literalVal w.toList).any (fun v => decide (v ≤ 3)) = true
  · rw [if_pos hsmall]
    obtain ⟨v, hv, hle⟩ := (Option.any_eq_true _ _).mp hsmall
    replace hle : v ≤ 3 := of_decide_eq_true hle
    obtain ⟨hpart, hdec⟩ := literal_decimal hv (by omega)
    rw [takenRight_some hv hle, if_neg hpart, hdec, (literal_plain hv).2, hv, true_and]
    by_cases hall : w.toList.all (isDigitOf 10) = true
    · rw [if_pos hall, longVal_small (by omega)]
      exact iff_of_true rfl (.inl hall)
    · rw [if_neg hall, longVal_small (by decide), Option.some.injEq]
      exact ⟨fun h => .inr h.symm, fun h => (h.resolve_left hall).symm⟩
  · rw [if_neg hsmall]
    have hno : ¬ ∃ v ≤ 3, literalVal w.toList = some v := by
      rintro ⟨v, hle, hv⟩
      exact hsmall (by rw [hv]; exact decide_eq_true hle)
    rw [takenRight_none hno, true_and, Nat.not_le]
    by_cases hpart : decPart w.toList = []
    · rw [if_pos hpart, if_pos hpart]
    · rw [if_neg hpart, if_neg hpart]

/-- A line takes its option for what it is just when the string is taken so. -/
theorem rightIndex_iff {p w : String} {before after : List QOpt} {k : IndexOpt}
    (h : RestInOrder p w before k after) (s : String) :
    RightIndex (indexLine p w before k after) k s ↔ TakenRight (k.opt s).Ok
      (k.entered (enterAll before {}).1.wrbEntrySize s) k.max s.toList := by
  obtain ⟨hacc, hstored⟩ := indexLine_iff h s
  constructor
  · intro hr
    refine ⟨hacc.symm.trans hr.accepted, fun hok => ?_⟩
    obtain ⟨r, hparse⟩ := hacc.mpr hok
    rw [← hstored r hparse]
    exact hr.stored r hparse
  · rintro ⟨hiff, hval⟩
    refine ⟨hacc.trans hiff, fun r hparse => ?_⟩
    rw [hstored r hparse]
    exact hval (hacc.mp ⟨r, hparse⟩)

/-- **When the string of an index is taken for what it is.** -/
theorem index_option_iff {p w : String} {before after : List QOpt} {k : IndexOpt}
    (h : RestInOrder p w before k after) (s : String) :
    RightIndex (indexLine p w before k after) k s ↔
      IndexFits (enterAll before {}).1.wrbEntrySize s.toList k := by
  rw [rightIndex_iff h]
  cases k with
  | size t => exact size_right t _ s
  | wrbsz => exact wrbsz_right _ s

/-- A line with a queue and one more option is in order. -/
theorem index_rest (k : IndexOpt) : RestInOrder "dmactl" "qdma0" [.idx "3"] k [] where
  last _ := List.not_mem_nil
  rest := by
    have hsize : ∀ v ≤ 15, Readable (toString v) := by decide
    have hvalid : ∀ v ≤ k.max,
        validateStart (startQparm [.idx "3", k.opt (toString v)]) = 0 := by
      cases k with
      | size t => cases t <;> decide
      | wrbsz => decide
    intro v hv
    refine ⟨_, (@parseCmd_start_iff "dmactl" "qdma0" [.idx "3", k.opt (toString v)] false 0
      (by decide) (by decide) {} _).mpr ⟨?_, ?_, hvalid v hv, rfl⟩⟩
    · intro o ho
      rcases List.mem_cons.mp ho with rfl | ho
      · exact show Readable "3" by decide
      · rw [List.mem_singleton.mp ho]
        cases k with
        | size t => exact hsize v hv
        | wrbsz => exact trivial
    · unfold enterAll
      rw [foldl_bits]
      cases k with
      | size t =>
          show (0 ||| QParmType.idx.bit ||| t.type.bit) &&& _ = _
          cases t <;> decide
      | wrbsz =>
          show (0 ||| QParmType.idx.bit ||| QParmType.wrbsz.bit) &&& _ = _
          decide

/-- The timer 7 is taken for what it is. -/
theorem index_option_seven :
    RightIndex (indexLine "dmactl" "qdma0" [.idx "3"] (.size .tmr) []) (.size .tmr) "7" :=
  (index_option_iff (index_rest (.size .tmr)) "7").mpr
    ⟨by decide, fun v hv => .inl (by
      obtain rfl : 7 = v := Option.some.inj hv
      decide)⟩

/-- **Strings that are accepted and are no index**: nothing, a number above 255, one below zero,
and digits with something behind them. -/
theorem index_misread :
    (∀ s ∈ ["", "256", "-241", "4294967301"],
      Accepted (indexLine "dmactl" "qdma0" [.idx "3"] (.size .tmr) [] s) ∧
      ¬ RightIndex (indexLine "dmactl" "qdma0" [.idx "3"] (.size .tmr) []) (.size .tmr) s) ∧
    ∀ s ∈ ["", "259", "3abc"],
      Accepted (indexLine "dmactl" "qdma0" [.idx "3"] .wrbsz [] s) ∧
      ¬ RightIndex (indexLine "dmactl" "qdma0" [.idx "3"] .wrbsz []) .wrbsz s := by
  have hbad : ∀ k s, (k.opt s).Ok ∧
      k.entered (enterAll [.idx "3"] {}).1.wrbEntrySize s ≤ k.max →
      literalVal s.toList ≠ some (k.entered (enterAll [.idx "3"] {}).1.wrbEntrySize s) →
      Accepted (indexLine "dmactl" "qdma0" [.idx "3"] k [] s) ∧
        ¬ RightIndex (indexLine "dmactl" "qdma0" [.idx "3"] k []) k s := by
    intro k s hok hne
    refine ⟨(indexLine_iff (index_rest k) s).1.mpr hok, fun hright => ?_⟩
    exact hne (((rightIndex_iff (index_rest k) s).mp hright).2 hok)
  constructor
  · have hsize : ∀ s ∈ ["", "256", "-241", "4294967301"],
        Readable s ∧ wordVal s % 256 ≤ 15 ∧ literalVal s.toList ≠ some (wordVal s % 256) := by
      decide
    intro s hs
    obtain ⟨hread, hle, hne⟩ := hsize s hs
    exact hbad (.size .tmr) s ⟨hread, hle⟩ hne
  · have hscan : ∀ s ∈ ["", "259", "3abc"], sscanfHhu s.toList 0 ≤ 3 ∧
        literalVal s.toList ≠ some (sscanfHhu s.toList 0) := by
      decide
    intro s hs
    obtain ⟨hle, hne⟩ := hscan s hs
    exact hbad .wrbsz s ⟨trivial, hle⟩ hne

end Qdma
