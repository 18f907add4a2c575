/-
# The options of a queue command

What follows the name of a queue command is a list of options, each of one, two or three words.
`readQparm_spec` says that `read_qparm` accepts the words of such a list, and no others, and that
what it leaves is the effect of the options, one after the other; it never reads behind `argc`.
-/
import Qdma.CmdLine

namespace Qdma

/-! ## Words -/

/-- A word that `arg_read_int` accepts. -/
def Readable (s : String) : Prop := (argReadInt s.toList).1 = 0

instance (s : String) : Decidable (Readable s) := inferInstanceAs (Decidable (_ = _))

/-- The number it stores. -/
def wordVal (s : String) : ℕ := (argReadInt s.toList).2

theorem argReadInt_rv (s : List Char) : (argReadInt s).1 = 0 ∨ (argReadInt s).1 = einval := by
  show (if (strtoul s).2 ≠ [] then einval else 0) = 0 ∨
    (if (strtoul s).2 ≠ [] then einval else 0) = einval
  by_cases h : (strtoul s).2 ≠ []
  · rw [if_pos h]
    exact .inr rfl
  · rw [if_neg h]
    exact .inl rfl

theorem readInt_cases (s : String) :
    (Readable s ∧ readInt s = .ok (wordVal s)) ∨ readInt s = .error (.ret einval) := by
  show (Readable s ∧ (if (argReadInt s.toList).1 < 0 then
    Except.error (.ret (argReadInt s.toList).1)
    else Except.ok (argReadInt s.toList).2 : Parse ℕ) = .ok (wordVal s)) ∨ _
  rcases argReadInt_rv s.toList with h | h
  · rw [h, if_neg (lt_irrefl (0 : ℤ))]
    exact .inl ⟨h, rfl⟩
  · refine .inr ?_
    show (if (argReadInt s.toList).1 < 0 then Except.error (.ret (argReadInt s.toList).1)
      else Except.ok (argReadInt s.toList).2 : Parse ℕ) = _
    rw [h, if_pos (show einval < 0 by decide)]

theorem ok_bind {α β : Type} (a : α) (f : α → Parse β) : ((.ok a : Parse α) >>= f) = f a := rfl

section Cursor

variable {argv : List String} {i : ℕ}

/-- The word at the cursor. -/
theorem argAt_of_lt (h : i < argv.length) :
    ∃ w, argAt argv i = .ok w ∧ w ∈ argv ∧ argv.drop i = w :: argv.drop (i + 1) := by
  refine ⟨argv[i], ?_, List.getElem_mem h, List.drop_eq_getElem_cons h⟩
  unfold argAt
  rw [List.getElem?_eq_getElem h]

/-- The macro moves the cursor on to another word, or returns. -/
theorem getNextArg_cases (h : i < argv.length) :
    (i + 1 < argv.length ∧ getNextArg argv i = .ok (i + 1)) ∨
      (argv.length = i + 1 ∧ getNextArg argv i = .error (.ret einval)) := by
  unfold getNextArg
  by_cases hlt : i + 1 < argv.length
  · rw [if_neg (Nat.not_le.mpr hlt)]
    exact .inl ⟨hlt, rfl⟩
  · obtain ⟨w, hw, -⟩ := argAt_of_lt h
    rw [if_pos (Nat.not_lt.mp hlt), hw]
    exact .inr ⟨by omega, rfl⟩

/-- The next word is a number, or the call returns. -/
theorem nextInt_cases (h : i < argv.length) :
    (∃ s, i + 1 < argv.length ∧ s ∈ argv ∧ argv.drop (i + 1) = s :: argv.drop (i + 2) ∧ Readable s ∧
        nextInt argv i = .ok (i + 1, wordVal s)) ∨ nextInt argv i = .error (.ret einval) := by
  unfold nextInt
  rcases getNextArg_cases h with ⟨hlt, hget⟩ | ⟨-, hget⟩
  · obtain ⟨s, hs, hmem, hdrop⟩ := argAt_of_lt hlt
    rw [hget, ok_bind, hs, ok_bind]
    rcases readInt_cases s with ⟨hok, hread⟩ | hread
    · refine .inl ⟨s, hlt, hmem, hdrop, hok, ?_⟩
      rw [hread]
      rfl
    · rw [hread]
      exact .inr rfl
  · rw [hget]
    exact .inr rfl

/-- A range is two numbers. -/
theorem readRange_cases (h : i < argv.length) :
    (∃ a b, i + 1 < argv.length ∧ a ∈ argv ∧ b ∈ argv ∧
        argv.drop i = a :: b :: argv.drop (i + 2) ∧ Readable a ∧ Readable b ∧
        readRange argv i = .ok (i + 2, wordVal a, wordVal b)) ∨
      readRange argv i = .error (.ret einval) := by
  unfold readRange
  obtain ⟨a, ha, hmem, hdrop⟩ := argAt_of_lt h
  rw [ha, ok_bind]
  rcases readInt_cases a with ⟨hok, hread⟩ | hread
  swap
  · rw [hread]
    exact .inr rfl
  rw [hread, ok_bind]
  rcases getNextArg_cases h with ⟨hlt, hget⟩ | ⟨-, hget⟩
  swap
  · rw [hget]
    exact .inr rfl
  obtain ⟨b, hb, hmem', hdrop'⟩ := argAt_of_lt hlt
  rw [hget, ok_bind, hb, ok_bind]
  rcases readInt_cases b with ⟨hok', hread'⟩ | hread'
  · rw [hread']
    exact .inl ⟨a, b, hlt, hmem, hmem', by rw [hdrop, hdrop'], hok, hok', rfl⟩
  · rw [hread']
    exact .inr rfl

end Cursor

/-! ## Options -/

/-- A parameter of `q start` with an index. -/
inductive SizeParm where
  | bufsz
  | ringsz
  | tmr
  | cntr
  deriving DecidableEq

/-- Its name. -/
def SizeParm.name : SizeParm → String
  | .bufsz => "idx_bufsz"
  | .ringsz => "idx_ringsz"
  | .tmr => "idx_tmr"
  | .cntr => "idx_cntr"

/-- Its type. -/
def SizeParm.type : SizeParm → QParmType
  | .bufsz => .c2hBufszIdx
  | .ringsz => .rngszIdx
  | .tmr => .wrbTmrIdx
  | .cntr => .wrbCntrIdx

/-- Its value. -/
def SizeParm.get (q : XcmdQParm) : SizeParm → ℕ
  | .bufsz => q.c2hBufszIdx
  | .ringsz => q.qrngszIdx
  | .tmr => q.wrbTmrIdx
  | .cntr => q.wrbCntrIdx

/-- It is set. -/
def SizeParm.set (q : XcmdQParm) (v : ℕ) : SizeParm → XcmdQParm
  | .bufsz => { q with c2hBufszIdx := v }
  | .ringsz => { q with qrngszIdx := v }
  | .tmr => { q with wrbTmrIdx := v }
  | .cntr => { q with wrbCntrIdx := v }

/-- An option without a value. -/
inductive FlagParm where
  | pfetchEn
  | bypassEn
  | c2hCmplIntrEn
  | c2hUddEn
  | disWbk
  | disWbkAcc
  | disWbkPendChk
  | disFetchCredit
  | disWrbStat
  deriving DecidableEq

/-- Its name. -/
def FlagParm.name : FlagParm → String
  | .pfetchEn => "pfetch_en"
  | .bypassEn => "bypass_en"
  | .c2hCmplIntrEn => "c2h_cmpl_intr_en"
  | .c2hUddEn => "c2h_udd_en"
  | .disWbk => "dis_wbk"
  | .disWbkAcc => "dis_wbk_acc"
  | .disWbkPendChk => "dis_wbk_pend_chk"
  | .disFetchCredit => "dis_fetch_credit"
  | .disWrbStat => "dis_wrb_stat"

/-- The flag it is about. -/
def FlagParm.flag : FlagParm → BitVec 32
  | .pfetchEn => xnlFPfetchEn
  | .bypassEn => xnlFDescBypassEn
  | .c2hCmplIntrEn => xnlFC2hCmplIntrEn
  | .c2hUddEn => xnlFCmplUddEn
  | .disWbk => xnlFWbkEn
  | .disWbkAcc => xnlFWbkAccEn
  | .disWbkPendChk => xnlFWbkPendChk
  | .disFetchCredit => xnlFFetchCredit
  | .disWrbStat => xnlFWrbStatDescEn

/-- It clears the flag. -/
def FlagParm.isDis : FlagParm → Bool
  | .disWbk | .disWbkAcc | .disWbkPendChk | .disFetchCredit | .disWrbStat => true
  | _ => false

/-- An option of a queue command, with its words. -/
inductive QOpt where
  | idx (w : String)
  | list (w n : String)
  | mode (w : String)
  | dir (w : String)
  | size (t : SizeParm) (w : String)
  | trigmode (w : String)
  | desc (a b : String)
  | wrb (a b : String)
  | wrbsz (w : String)
  | flag (f : FlagParm)

/-- The words on the line. -/
def QOpt.words : QOpt → List String
  | .idx w => ["idx", w]
  | .list w n => ["list", w, n]
  | .mode w => ["mode", w]
  | .dir w => ["dir", w]
  | .size t w => [t.name, w]
  | .trigmode w => ["trigmode", w]
  | .desc a b => ["desc", a, b]
  | .wrb a b => ["wrb", a, b]
  | .wrbsz w => ["wrbsz", w]
  | .flag f => [f.name]

/-- Numbers are numbers, and names are known. -/
def QOpt.Ok : QOpt → Prop
  | .idx w => Readable w
  | .list w n => Readable w ∧ Readable n
  | .mode w => modeFlag w ≠ none
  | .dir w => dirFlag w ≠ none
  | .size _ w => Readable w
  | .trigmode w => trigMode w ≠ none
  | .desc a b => Readable a ∧ Readable b
  | .wrb a b => Readable a ∧ Readable b
  | .wrbsz _ => True
  | .flag _ => True

/-- The bit it sets in `f_arg_set`. -/
def QOpt.bit : QOpt → BitVec 32
  | .idx _ | .list _ _ => QParmType.idx.bit
  | .mode _ => QParmType.mode.bit
  | .dir _ => QParmType.dir.bit
  | .size t _ => t.type.bit
  | .trigmode _ => QParmType.wrbTrigMode.bit
  | .desc _ _ => QParmType.desc.bit
  | .wrb _ _ => QParmType.wrb.bit
  | .wrbsz _ => QParmType.wrbsz.bit
  | .flag _ => 0

/-- What it does to the parameters. -/
def QOpt.enter (q : XcmdQParm) : QOpt → XcmdQParm
  | .idx w => { q with idx := wordVal w, numQ := 1 }
  | .list w n => { q with idx := wordVal w, numQ := wordVal n }
  | .mode w => q.setFlags ((modeFlag w).getD 0)
  | .dir w => q.setFlags ((dirFlag w).getD 0)
  | .size t w => t.set q (wordVal w % 256)
  | .trigmode w => { q with wrbTrigMode := (trigMode w).getD 0 }
  | .desc a b => { q with rangeStart := wordVal a, rangeEnd := wordVal b }
  | .wrb a b => { q with rangeStart := wordVal a, rangeEnd := wordVal b }
  | .wrbsz w => { q with wrbEntrySize := sscanfHhu w.toList q.wrbEntrySize }
  | .flag f => if f.isDis then q.clearFlags f.flag else q.setFlags f.flag

/-- The parameters and `f_arg_set` after it. -/
def QOpt.apply (s : XcmdQParm × BitVec 32) (o : QOpt) : XcmdQParm × BitVec 32 :=
  (o.enter s.1, s.2 ||| o.bit)

/-! ## One option -/

/-- The loop body reads an option that is there, or returns. -/
def RoundSpec (argv : List String) (i : ℕ) (s : XcmdQParm × BitVec 32)
    (r : Parse (ℕ × XcmdQParm × BitVec 32)) : Prop :=
  r = .error (.ret einval) ∨ ∃ o i', QOpt.Ok o ∧ argv.drop i = o.words ++ argv.drop i' ∧ i < i' ∧
    i' ≤ argv.length ∧ r = .ok (i', o.apply s)

section Step

variable {argv : List String} {i : ℕ} {s : XcmdQParm × BitVec 32}

theorem readNumber_spec (h : i < argv.length) {t : QParmType} {store : XcmdQParm → ℕ → XcmdQParm}
    {w : String} (hw : argv.drop i = w :: argv.drop (i + 1)) (o : String → QOpt)
    (hwords : ∀ n, (o n).words = [w, n]) (hok : ∀ n, Readable n → (o n).Ok)
    (happly : ∀ n, (o n).apply s = (store s.1 (wordVal n), s.2 ||| t.bit)) :
    RoundSpec argv i s (readNumber argv i s.1 s.2 t store) := by
  unfold readNumber
  rcases nextInt_cases h with ⟨n, hlt, -, hdrop, hread, hint⟩ | hint
  · rw [hint]
    refine .inr ⟨o n, i + 2, hok n hread, ?_, by omega, hlt, ?_⟩
    · rw [hw, hdrop, hwords]
      rfl
    · rw [happly]
      rfl
  · rw [hint]
    exact .inl rfl

theorem readWord_spec {α : Type} (h : i < argv.length) {t : QParmType} {kind : String → Option α}
    {store : XcmdQParm → α → XcmdQParm}
    {w : String} (hw : argv.drop i = w :: argv.drop (i + 1)) (o : String → QOpt)
    (hwords : ∀ n, (o n).words = [w, n]) (hok : ∀ n a, kind n = some a → (o n).Ok)
    (happly : ∀ n a, kind n = some a → (o n).apply s = (store s.1 a, s.2 ||| t.bit)) :
    RoundSpec argv i s (readWord argv i s.1 s.2 t kind store) := by
  unfold readWord
  rcases getNextArg_cases h with ⟨hlt, hget⟩ | ⟨-, hget⟩
  swap
  · rw [hget]
    exact .inl rfl
  obtain ⟨n, hn, -, hdrop⟩ := argAt_of_lt hlt
  rw [hget, ok_bind, hn, ok_bind]
  cases hk : kind n with
  | none => exact .inl rfl
  | some a =>
      refine .inr ⟨o n, i + 2, hok n a hk, ?_, by omega, hlt, ?_⟩
      · rw [hw, hdrop, hwords]
        rfl
      · rw [happly n a hk]

theorem readRangeParm_spec (h : i < argv.length) {t : QParmType}
    {w : String} (hw : argv.drop i = w :: argv.drop (i + 1)) (o : String → String → QOpt)
    (hwords : ∀ a b, (o a b).words = [w, a, b])
    (hok : ∀ a b, Readable a → Readable b → (o a b).Ok)
    (happly : ∀ a b, (o a b).apply s
      = ({ s.1 with rangeStart := wordVal a, rangeEnd := wordVal b }, s.2 ||| t.bit)) :
    RoundSpec argv i s (readRangeParm argv i s.1 s.2 t) := by
  unfold readRangeParm
  rcases getNextArg_cases h with ⟨hlt, hget⟩ | ⟨-, hget⟩
  swap
  · rw [hget]
    exact .inl rfl
  rw [hget, ok_bind]
  rcases readRange_cases hlt with ⟨a, b, hlt', -, -, hdrop, ha, hb, hread⟩ | hread
  · rw [hread]
    refine .inr ⟨o a b, i + 3, hok a b ha hb, ?_, by omega, hlt', ?_⟩
    · rw [hw, hdrop, hwords]
      rfl
    · rw [happly]
      rfl
  · rw [hread]
    exact .inl rfl

/-- An option without a value. -/
theorem flag_spec (h : i < argv.length) (f : FlagParm)
    (hw : argv.drop i = f.name :: argv.drop (i + 1)) :
    RoundSpec argv i s (.ok (i + 1,
      if f.isDis then s.1.clearFlags f.flag else s.1.setFlags f.flag, s.2)) := by
  refine .inr ⟨.flag f, i + 1, trivial, hw, Nat.lt_succ_self i, h, ?_⟩
  show _ = Except.ok (i + 1, QOpt.enter s.1 (.flag f), s.2 ||| 0#32)
  rw [BitVec.or_zero]
  rfl

theorem list_spec (h : i < argv.length) (hw : argv.drop i = "list" :: argv.drop (i + 1)) :
    RoundSpec argv i s (do
      let (i, v) ← nextInt argv i
      readNumber argv i { s.1 with idx := v } s.2 .idx (fun q v => { q with numQ := v })) := by
  rcases nextInt_cases h with ⟨a, hlt, -, hdrop, hread, hint⟩ | hint
  swap
  · rw [hint]
    exact .inl rfl
  rw [hint, ok_bind]
  simp only
  unfold readNumber
  rcases nextInt_cases hlt with ⟨b, hlt', -, hdrop', hread', hint'⟩ | hint'
  · rw [hint']
    refine .inr ⟨.list a b, i + 3, ⟨hread, hread'⟩, ?_, by omega, hlt', rfl⟩
    rw [hw, hdrop, hdrop']
    rfl
  · rw [hint']
    exact .inl rfl

/-- **One round of the loop** of `read_qparm`. -/
theorem readQparmStep_spec (h : i < argv.length) :
    RoundSpec argv i s (readQparmStep argv i s.1 s.2) := by
  obtain ⟨w, hw, -, hdrop⟩ := argAt_of_lt h
  unfold readQparmStep
  rw [hw, ok_bind]
  by_cases h1 : w = "idx"
  · rw [if_pos h1]
    subst h1
    exact readNumber_spec h hdrop .idx (fun _ => rfl) (fun _ hn => hn) (fun _ => rfl)
  rw [if_neg h1]
  by_cases h2 : w = "list"
  · rw [if_pos h2]
    subst h2
    exact list_spec h hdrop
  rw [if_neg h2]
  by_cases h3 : w = "mode"
  · rw [if_pos h3]
    subst h3
    refine readWord_spec h hdrop .mode (fun _ => rfl) (fun n a ha => ?_) (fun n a ha => ?_)
    · show modeFlag n ≠ none
      rw [ha]
      exact Option.some_ne_none a
    · show (s.1.setFlags ((modeFlag n).getD 0), _) = _
      rw [ha]
      rfl
  rw [if_neg h3]
  by_cases h4 : w = "dir"
  · rw [if_pos h4]
    subst h4
    refine readWord_spec h hdrop .dir (fun _ => rfl) (fun n a ha => ?_) (fun n a ha => ?_)
    · show dirFlag n ≠ none
      rw [ha]
      exact Option.some_ne_none a
    · show (s.1.setFlags ((dirFlag n).getD 0), _) = _
      rw [ha]
      rfl
  rw [if_neg h4]
  by_cases h5 : w = "idx_bufsz"
  · rw [if_pos h5]
    subst h5
    exact readNumber_spec h hdrop (.size .bufsz) (fun _ => rfl) (fun _ hn => hn) (fun _ => rfl)
  rw [if_neg h5]
  by_cases h6 : w = "idx_ringsz"
  · rw [if_pos h6]
    subst h6
    exact readNumber_spec h hdrop (.size .ringsz) (fun _ => rfl) (fun _ hn => hn) (fun _ => rfl)
  rw [if_neg h6]
  by_cases h7 : w = "idx_tmr"
  · rw [if_pos h7]
    subst h7
    exact readNumber_spec h hdrop (.size .tmr) (fun _ => rfl) (fun _ hn => hn) (fun _ => rfl)
  rw [if_neg h7]
  by_cases h8 : w = "idx_cntr"
  · rw [if_pos h8]
    subst h8
    exact readNumber_spec h hdrop (.size .cntr) (fun _ => rfl) (fun _ hn => hn) (fun _ => rfl)
  rw [if_neg h8]
  by_cases h9 : w = "trigmode"
  · rw [if_pos h9]
    subst h9
    refine readWord_spec h hdrop .trigmode (fun _ => rfl) (fun n a ha => ?_) (fun n a ha => ?_)
    · show trigMode n ≠ none
      rw [ha]
      exact Option.some_ne_none a
    · show (({ s.1 with wrbTrigMode := (trigMode n).getD 0 } : XcmdQParm), _) = _
      rw [ha]
      rfl
  rw [if_neg h9]
  by_cases h10 : w = "desc"
  · rw [if_pos h10]
    subst h10
    exact readRangeParm_spec h hdrop .desc (fun _ _ => rfl) (fun _ _ ha hb => ⟨ha, hb⟩)
      (fun _ _ => rfl)
  rw [if_neg h10]
  by_cases h11 : w = "wrb"
  · rw [if_pos h11]
    subst h11
    exact readRangeParm_spec h hdrop .wrb (fun _ _ => rfl) (fun _ _ ha hb => ⟨ha, hb⟩)
      (fun _ _ => rfl)
  rw [if_neg h11]
  by_cases h12 : w = "wrbsz"
  · rw [if_pos h12]
    subst h12
    refine readWord_spec h hdrop .wrbsz (fun _ => rfl) (fun n a ha => trivial) (fun n a ha => ?_)
    obtain rfl : n = a := Option.some.inj ha
    rfl
  rw [if_neg h12]
  by_cases h13 : w = "pfetch_en"
  · rw [if_pos h13]
    subst h13
    exact flag_spec h .pfetchEn hdrop
  rw [if_neg h13]
  by_cases h14 : w = "bypass_en"
  · rw [if_pos h14]
    subst h14
    exact flag_spec h .bypassEn hdrop
  rw [if_neg h14]
  by_cases h15 : w = "c2h_cmpl_intr_en"
  · rw [if_pos h15]
    subst h15
    exact flag_spec h .c2hCmplIntrEn hdrop
  rw [if_neg h15]
  by_cases h16 : w = "dis_wbk"
  · rw [if_pos h16]
    subst h16
    exact flag_spec h .disWbk hdrop
  rw [if_neg h16]
  by_cases h17 : w = "dis_wbk_acc"
  · rw [if_pos h17]
    subst h17
    exact flag_spec h .disWbkAcc hdrop
  rw [if_neg h17]
  by_cases h18 : w = "dis_wbk_pend_chk"
  · rw [if_pos h18]
    subst h18
    exact flag_spec h .disWbkPendChk hdrop
  rw [if_neg h18]
  by_cases h19 : w = "dis_fetch_credit"
  · rw [if_pos h19]
    subst h19
    exact flag_spec h .disFetchCredit hdrop
  rw [if_neg h19]
  by_cases h20 : w = "dis_wrb_stat"
  · rw [if_pos h20]
    subst h20
    exact flag_spec h .disWrbStat hdrop
  rw [if_neg h20]
  by_cases h21 : w = "c2h_udd_en"
  · rw [if_pos h21]
    subst h21
    exact flag_spec h .c2hUddEn hdrop
  rw [if_neg h21]
  exact .inl rfl

end Step

/-! ## All options -/

/-- What the options leave, from nothing but an invalid index. -/
def enterAll (opts : List QOpt) (q : XcmdQParm) : XcmdQParm × BitVec 32 :=
  opts.foldl QOpt.apply ({ q with idx := xnlQidxInvalid }, 0)

theorem readQparmLoop_spec {argv : List String} (fuel : ℕ) {i : ℕ} {s : XcmdQParm × BitVec 32}
    (hi : i ≤ argv.length) (hfuel : argv.length < i + fuel) :
    readQparmLoop argv fuel i s.1 s.2 = .error (.ret einval) ∨
      ∃ opts : List QOpt, (∀ o ∈ opts, QOpt.Ok o) ∧ argv.drop i = opts.flatMap QOpt.words ∧
        readQparmLoop argv fuel i s.1 s.2 = .ok (opts.foldl QOpt.apply s) := by
  induction fuel generalizing i s with
  | zero => exact absurd hfuel (Nat.not_lt.mpr hi)
  | succ fuel ih =>
      unfold readQparmLoop
      by_cases hlt : i < argv.length
      · rw [if_pos hlt]
        rcases readQparmStep_spec hlt (s := s) with herr | ⟨o, i', hok, hdrop, hi', hle, hstep⟩
        · rw [herr]
          exact .inl rfl
        · rw [hstep, ok_bind]
          rcases ih (s := o.apply s) hle (by omega) with herr | ⟨opts, hoks, hdrops, hloop⟩
          · exact .inl herr
          · refine .inr ⟨o :: opts, ?_, ?_, hloop⟩
            · intro o' ho'
              rcases List.mem_cons.mp ho' with rfl | ho'
              · exact hok
              · exact hoks o' ho'
            · rw [hdrop, hdrops, List.flatMap_cons]
      · rw [if_neg hlt]
        refine .inr ⟨[], fun o ho => absurd ho List.not_mem_nil, ?_, rfl⟩
        rw [List.drop_eq_nil_of_le (Nat.not_lt.mp hlt)]
        rfl

/-- **`read_qparm`** returns an error, or the effect of the options that make up the line. -/
theorem readQparm_spec {argv : List String} {i : ℕ} (hi : i ≤ argv.length) (q : XcmdQParm)
    (fArgRequired : BitVec 32) :
    readQparm argv i q fArgRequired = .error (.ret einval) ∨
      ∃ opts, (∀ o ∈ opts, QOpt.Ok o) ∧ argv.drop i = opts.flatMap QOpt.words ∧
        (enterAll opts q).2 &&& fArgRequired = fArgRequired ∧
        readQparm argv i q fArgRequired
          = .ok (finishQparm (enterAll opts q).1 (enterAll opts q).2) := by
  unfold readQparm
  rcases readQparmLoop_spec (argv.length + 1)
    (s := ({ q with idx := xnlQidxInvalid }, 0)) hi (by omega) with herr | ⟨opts, hoks, hdrop, hok⟩
  · rw [herr]
    exact .inl rfl
  · rw [hok, ok_bind]
    show (if (enterAll opts q).2 &&& fArgRequired ≠ fArgRequired then Except.error (.ret einval)
      else Except.ok (finishQparm (enterAll opts q).1 (enterAll opts q).2) : Parse XcmdQParm)
        = _ ∨ _
    by_cases hreq : (enterAll opts q).2 &&& fArgRequired = fArgRequired
    · refine .inr ⟨opts, hoks, hdrop, hreq, ?_⟩
      show (if (enterAll opts q).2 &&& fArgRequired ≠ fArgRequired then Except.error (.ret einval)
        else Except.ok (finishQparm (enterAll opts q).1 (enterAll opts q).2) : Parse XcmdQParm) = _
      rw [if_neg (not_not.mpr hreq)]
    · rw [if_pos hreq]
      exact .inl rfl

end Qdma
