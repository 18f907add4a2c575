/-
# A start command arrives as typed

`start_arrives_iff` follows the options of `q start` from the words on the line through the
parser, the message and the driver's readers into a `struct qdma_queue_conf`, and says when they
have the effect that they are documented with.  `start_not_as_typed` has two lines where they have
not: the options that clear a flag are read before the flags are set, and a size is cut to a byte
before it is checked.
-/
import Qdma.SendCmd
import Qdma.CmdSafe

namespace Qdma

/-! ## The law -/

/-- The value of the last option of a kind. -/
def lastOf {α : Type} (f : QOpt → Option α) (opts : List QOpt) : Option α :=
  (opts.filterMap f).getLast?

/-- The number that a word stands for, as `strtoul` reads it. -/
def typedVal (w : String) : ℕ := (strtoul w.toList).1

/-- The decimal number that a word is. -/
def decVal (w : String) : Option ℕ :=
  match scanNumber 10 w.toList with
  | some (n, []) => some n
  | _ => none

/-- The index of a queue. -/
def QOpt.idxWord : QOpt → Option String
  | .idx w | .list w _ => some w
  | _ => none

/-- A size or another index. -/
def QOpt.sizeWord (t : SizeParm) : QOpt → Option String
  | .size t' w => if t' = t then some w else none
  | _ => none

/-- A trigger mode. -/
def QOpt.trigWord : QOpt → Option String
  | .trigmode w => some w
  | _ => none

/-- A size of the completion entries. -/
def QOpt.wrbszWord : QOpt → Option String
  | .wrbsz w => some w
  | _ => none

/-- What the documentation says and the code could say otherwise: the numbers of the trigger
modes, and the defaults of the trigger mode and of the completion size, by `st` and `c2h`. -/
structure StartDocs where
  trigOf : String → ℕ
  trigDefault : ℕ
  wrbszDefault : Bool → Bool → ℕ

/-- The options ask for streaming. -/
def AsksSt (opts : List QOpt) : Prop := QOpt.mode "st" ∈ opts

/-- They ask for the direction to the host. -/
def AsksC2h (opts : List QOpt) : Prop := QOpt.dir "c2h" ∈ opts ∨ QOpt.dir "bi" ∈ opts

/-- They ask for the direction to the card. -/
def AsksH2c (opts : List QOpt) : Prop := QOpt.dir "h2c" ∈ opts ∨ QOpt.dir "bi" ∈ opts

/-- A size that the options give, or 0. -/
def sizeGiven (t : SizeParm) (opts : List QOpt) : ℕ :=
  ((lastOf (QOpt.sizeWord t) opts).map typedVal).getD 0

/-- **Every option has its documented effect**, and the others their documented default. -/
structure Arrived (doc : StartDocs) (opts : List QOpt) (c : StartConf) (isQp : Bool) : Prop where
  qidx : (lastOf QOpt.idxWord opts).map typedVal = some c.qidx
  st : c.st = true ↔ AsksSt opts
  c2h : c.c2h = true ↔ AsksC2h opts
  qp : isQp = true ↔ AsksC2h opts ∧ AsksH2c opts
  ringsz : c.descRngSzIdx = sizeGiven .ringsz opts
  cmplRingsz : c.cmplRngSzIdx = sizeGiven .ringsz opts
  bufsz : c.c2hBufSzIdx = sizeGiven .bufsz opts
  tmr : c.cmplTimerIdx = sizeGiven .tmr opts
  cntr : c.cmplCntThIdx = sizeGiven .cntr opts
  wrbsz : ∀ w, lastOf QOpt.wrbszWord opts = some w → decVal w = some c.cmplDescSz
  noWrbsz : lastOf QOpt.wrbszWord opts = none → c.cmplDescSz = doc.wrbszDefault c.st c.c2h
  trig : ∀ w, lastOf QOpt.trigWord opts = some w → c.cmplTrigMode = doc.trigOf w
  noTrig : lastOf QOpt.trigWord opts = none → c.cmplTrigMode = doc.trigDefault
  pfetchEn : c.pfetchEn = true ↔ QOpt.flag .pfetchEn ∈ opts
  bypass : c.bypass = true ↔ QOpt.flag .bypassEn ∈ opts
  cmplEnIntr : c.cmplEnIntr = true ↔ QOpt.flag .c2hCmplIntrEn ∈ opts
  cmplUddEn : c.cmplUddEn = true ↔ QOpt.flag .c2hUddEn ∈ opts
  wbkEn : c.wbkEn = false ↔ QOpt.flag .disWbk ∈ opts
  wbkAccEn : c.wbkAccEn = false ↔ QOpt.flag .disWbkAcc ∈ opts
  wbkPendChk : c.wbkPendChk = false ↔ QOpt.flag .disWbkPendChk ∈ opts
  fetchCredit : c.fetchCredit = false ↔ QOpt.flag .disFetchCredit ∈ opts
  cmplStatEn : c.cmplStatEn = false ↔ QOpt.flag .disWrbStat ∈ opts

/-- A message is decoded so. -/
def Arrives (doc : StartDocs) (opts : List QOpt) (r : Except (ℤ × String) (StartConf × Bool)) :
    Prop :=
  ∃ c isQp, r = .ok (c, isQp) ∧ Arrived doc opts c isQp

/-- **When it is**: nothing is disabled, the modes are not both given, every last value fits the
field it goes through, and the documentation of the trigger mode and of the completion size agrees
with the code where they matter. -/
structure ArrivesWhen (doc : StartDocs) (opts : List QOpt) : Prop where
  enabled : ∀ f : FlagParm, f.isDis = true → QOpt.flag f ∉ opts
  modes : ¬ (AsksSt opts ∧ QOpt.mode "mm" ∈ opts)
  idx : ∀ w, lastOf QOpt.idxWord opts = some w → typedVal w < 2 ^ 16
  size : ∀ t w, lastOf (QOpt.sizeWord t) opts = some w → typedVal w < 2 ^ 8
  wrbsz : ∀ w, lastOf QOpt.wrbszWord opts = some w → ∃ n < 2 ^ 8, decVal w = some n
  noWrbsz : lastOf QOpt.wrbszWord opts = none → ∀ st c2h : Bool, (st = true ↔ AsksSt opts) →
    (c2h = true ↔ AsksC2h opts) → doc.wrbszDefault st c2h = if st then 3 else 0
  trig : ∀ w, lastOf QOpt.trigWord opts = some w → trigMode w = some (doc.trigOf w)
  noTrig : lastOf QOpt.trigWord opts = none → doc.trigDefault = 1

/-- The options on a line with `q start`. -/
def Typed (argv : List String) (opts : List QOpt) : Prop :=
  (∀ o ∈ opts, o.Ok) ∧ argv.drop 4 = opts.flatMap QOpt.words

/-! ## The words of the options -/

/-- The number of words behind the name of an option. -/
def arity (k : String) : ℕ :=
  if k ∈ ["list", "desc", "wrb"] then 2
  else if k ∈ ["idx", "mode", "dir", "idx_bufsz", "idx_ringsz", "idx_tmr", "idx_cntr", "trigmode",
      "wrbsz"] then 1
  else 0

/-- The option that some words are. -/
def ofWords : List String → Option QOpt
  | [k] =>
      ([.pfetchEn, .bypassEn, .c2hCmplIntrEn, .c2hUddEn, .disWbk, .disWbkAcc, .disWbkPendChk,
        .disFetchCredit, .disWrbStat].find? (fun f : FlagParm => f.name = k)).map .flag
  | [k, w] =>
      if k = "idx" then some (.idx w)
      else if k = "mode" then some (.mode w)
      else if k = "dir" then some (.dir w)
      else if k = "trigmode" then some (.trigmode w)
      else if k = "wrbsz" then some (.wrbsz w)
      else ([.bufsz, .ringsz, .tmr, .cntr].find? (fun t : SizeParm => t.name = k)).map (.size · w)
  | [k, a, b] =>
      if k = "list" then some (.list a b)
      else if k = "desc" then some (.desc a b)
      else if k = "wrb" then some (.wrb a b)
      else none
  | _ => none

theorem ofWords_words (o : QOpt) : ofWords o.words = some o := by
  cases o with
  | size t w => cases t <;> rfl
  | flag f => cases f <;> rfl
  | _ => rfl

/-- The first word says how many there are. -/
theorem words_arity (o : QOpt) : ∃ k args, o.words = k :: args ∧ args.length = arity k := by
  cases o with
  | size t w => cases t <;> exact ⟨_, _, rfl, rfl⟩
  | flag f => cases f <;> exact ⟨_, _, rfl, rfl⟩
  | _ => exact ⟨_, _, rfl, rfl⟩

/-- **Words are those of one list of options.** -/
theorem flatMap_words_inj {opts opts' : List QOpt}
    (h : opts.flatMap QOpt.words = opts'.flatMap QOpt.words) : opts = opts' := by
  induction opts generalizing opts' with
  | nil =>
      cases opts' with
      | nil => rfl
      | cons o' opts' =>
          obtain ⟨k, args, hwords, -⟩ := words_arity o'
          rw [List.flatMap_cons, hwords] at h
          exact absurd h (List.cons_ne_nil _ _).symm
  | cons o opts ih =>
      obtain ⟨k, args, hwords, hlen⟩ := words_arity o
      cases opts' with
      | nil =>
          rw [List.flatMap_cons, hwords] at h
          exact absurd h (List.cons_ne_nil _ _)
      | cons o' opts' =>
          obtain ⟨k', args', hwords', hlen'⟩ := words_arity o'
          rw [List.flatMap_cons, List.flatMap_cons, hwords, hwords', List.cons_append,
            List.cons_append, List.cons.injEq] at h
          obtain ⟨rfl, hrest⟩ := h
          obtain ⟨rfl, htail⟩ := List.append_inj hrest (hlen.trans hlen'.symm)
          have ho : o = o' := by
            have heq := (ofWords_words o).symm
            rw [hwords, ← hwords', ofWords_words] at heq
            exact Option.some.inj heq
          rw [ho, ih htail]

/-! ## The last option of a kind -/

section Last

variable {α : Type} {f : QOpt → Option α} {opts : List QOpt}

theorem lastOf_append (o : QOpt) :
    lastOf f (opts ++ [o]) = (f o).or (lastOf f opts) := by
  unfold lastOf
  rw [List.filterMap_append]
  cases h : f o with
  | none => simp [h]
  | some a => simp [h]

theorem lastOf_eq_none_iff : lastOf f opts = none ↔ ∀ o ∈ opts, f o = none := by
  unfold lastOf
  rw [List.getLast?_eq_none_iff, List.filterMap_eq_nil_iff]

/-- A part of the state that one kind of option sets has the value of the last of them. -/
theorem lastOf_enter {g : XcmdQParm → ℕ} {v : α → ℕ} (hset : ∀ q o a, f o = some a →
      g (QOpt.enter q o) = v a) (hkeep : ∀ q o, f o = none → g (QOpt.enter q o) = g q)
    (s : XcmdQParm × BitVec 32) :
    g (opts.foldl QOpt.apply s).1 = ((lastOf f opts).map v).getD (g s.1) := by
  induction opts using List.reverseRecOn with
  | nil => rfl
  | append_singleton opts o ih =>
      rw [List.foldl_append, List.foldl_cons, List.foldl_nil, lastOf_append]
      cases h : f o with
      | none =>
          rw [Option.none_or, ← ih]
          exact hkeep _ o h
      | some a =>
          rw [Option.some_or]
          exact hset _ o a h

end Last

/-! ## Flags -/

/-- The flags that an option sets. -/
def QOpt.sets : QOpt → BitVec 32
  | .mode w => (modeFlag w).getD 0
  | .dir w => (dirFlag w).getD 0
  | .flag f => if f.isDis then 0 else f.flag
  | _ => 0

/-- The flags that it clears. -/
def QOpt.clears : QOpt → BitVec 32
  | .flag f => if f.isDis then f.flag else 0
  | _ => 0

theorem and_not_zero (x : BitVec 32) : x &&& ~~~(0 : BitVec 32) = x := by
  show x &&& ~~~(0#32) = x
  rw [BitVec.not_zero, BitVec.and_allOnes]

theorem enter_flags (q : XcmdQParm) (o : QOpt) :
    (o.enter q).flags = (q.flags &&& ~~~o.clears) ||| o.sets := by
  have hkeep : q.flags = (q.flags &&& ~~~(0 : BitVec 32)) ||| 0#32 := by
    rw [and_not_zero, BitVec.or_zero]
  cases o with
  | mode w =>
      show q.flags ||| _ = (q.flags &&& ~~~(0 : BitVec 32)) ||| _
      rw [and_not_zero]
      rfl
  | dir w =>
      show q.flags ||| _ = (q.flags &&& ~~~(0 : BitVec 32)) ||| _
      rw [and_not_zero]
      rfl
  | size t w => cases t <;> exact hkeep
  | flag f =>
      unfold QOpt.enter QOpt.clears QOpt.sets
      simp only
      by_cases hdis : f.isDis = true
      · rw [if_pos hdis, if_pos hdis, if_pos hdis]
        exact (BitVec.or_zero).symm
      · rw [if_neg hdis, if_neg hdis, if_neg hdis]
        rw [and_not_zero]
        rfl
  | _ => exact hkeep

/-- The options that set a flag. -/
def flagOpts : ℕ → List QOpt
  | 0 => [.mode "st"]
  | 1 => [.mode "mm"]
  | 2 => [.dir "h2c", .dir "bi"]
  | 3 => [.dir "c2h", .dir "bi"]
  | 4 => [.flag .pfetchEn]
  | 5 => [.flag .bypassEn]
  | 11 => [.flag .c2hCmplIntrEn]
  | 12 => [.flag .c2hUddEn]
  | _ => []

theorem sets_iff {k : ℕ} (hk : k ∈ [0, 1, 2, 3, 4, 5, 11, 12]) (o : QOpt) :
    o.sets.getLsbD k = true ↔ o ∈ flagOpts k := by
  simp only [List.mem_cons, List.not_mem_nil, or_false] at hk
  cases o with
  | mode w =>
      unfold QOpt.sets modeFlag
      simp only
      by_cases hmm : w = "mm"
      · subst hmm
        rw [if_pos rfl]
        rcases hk with rfl | rfl | rfl | rfl | rfl | rfl | rfl | rfl <;>
          simp [flagOpts, xnlFQmodeMm]
      by_cases hst : w = "st"
      · subst hst
        rw [if_neg hmm, if_pos rfl]
        rcases hk with rfl | rfl | rfl | rfl | rfl | rfl | rfl | rfl <;>
          simp [flagOpts, xnlFQmodeSt]
      · rw [if_neg hmm, if_neg hst]
        rcases hk with rfl | rfl | rfl | rfl | rfl | rfl | rfl | rfl <;> simp [flagOpts, hmm, hst]
  | dir w =>
      unfold QOpt.sets dirFlag
      simp only
      by_cases hh : w = "h2c"
      · subst hh
        rw [if_pos rfl]
        rcases hk with rfl | rfl | rfl | rfl | rfl | rfl | rfl | rfl <;>
          simp [flagOpts, xnlFQdirH2c]
      by_cases hc : w = "c2h"
      · subst hc
        rw [if_neg hh, if_pos rfl]
        rcases hk with rfl | rfl | rfl | rfl | rfl | rfl | rfl | rfl <;>
          simp [flagOpts, xnlFQdirC2h]
      by_cases hb : w = "bi"
      · subst hb
        rw [if_neg hh, if_neg hc, if_pos rfl]
        rcases hk with rfl | rfl | rfl | rfl | rfl | rfl | rfl | rfl <;>
          simp [flagOpts, xnlFQdirBoth, xnlFQdirH2c, xnlFQdirC2h]
      · rw [if_neg hh, if_neg hc, if_neg hb]
        rcases hk with rfl | rfl | rfl | rfl | rfl | rfl | rfl | rfl <;>
          simp [flagOpts, hh, hc, hb]
  | flag f =>
      rcases hk with rfl | rfl | rfl | rfl | rfl | rfl | rfl | rfl <;> cases f <;>
        simp [flagOpts, QOpt.sets, FlagParm.isDis, FlagParm.flag, xnlFPfetchEn, xnlFDescBypassEn,
          xnlFC2hCmplIntrEn, xnlFCmplUddEn]
  | _ =>
      rcases hk with rfl | rfl | rfl | rfl | rfl | rfl | rfl | rfl <;> simp [flagOpts, QOpt.sets]

theorem clears_eq {k : ℕ} (hk : k ∈ [0, 1, 2, 3, 4, 5, 11, 12]) (o : QOpt) :
    o.clears.getLsbD k = false := by
  simp only [List.mem_cons, List.not_mem_nil, or_false] at hk
  cases o with
  | flag f =>
      rcases hk with rfl | rfl | rfl | rfl | rfl | rfl | rfl | rfl <;> cases f <;> rfl
  | _ => exact BitVec.getLsbD_zero

/-- **The flags after all options.** -/
theorem enterAll_flag {k : ℕ} (hk : k ∈ [0, 1, 2, 3, 4, 5, 11, 12]) (opts : List QOpt) :
    (enterAll opts {}).1.flags.getLsbD k = true ↔ ∃ o ∈ opts, o ∈ flagOpts k := by
  have hlt : k < 32 := by
    simp only [List.mem_cons, List.not_mem_nil, or_false] at hk
    omega
  unfold enterAll
  induction opts using List.reverseRecOn with
  | nil => simp
  | append_singleton opts o ih =>
      rw [List.foldl_append, List.foldl_cons, List.foldl_nil]
      show (o.enter _).flags.getLsbD k = true ↔ _
      rw [enter_flags, BitVec.getLsbD_or, BitVec.getLsbD_and, BitVec.getLsbD_not, clears_eq hk,
        Bool.not_false, Bool.and_true, decide_eq_true hlt, Bool.and_true, Bool.or_eq_true]
      refine (or_congr ih (sets_iff hk o)).trans ?_
      constructor
      · rintro (⟨o', ho', hf⟩ | hf)
        · exact ⟨o', List.mem_append_left _ ho', hf⟩
        · exact ⟨o, List.mem_append_right _ (List.mem_singleton_self o), hf⟩
      · rintro ⟨o', ho', hf⟩
        rcases List.mem_append.mp ho' with ho' | ho'
        · exact .inl ⟨o', ho', hf⟩
        · obtain rfl := List.mem_singleton.mp ho'
          exact .inr hf

theorem foldl_bits (opts : List QOpt) (s : XcmdQParm × BitVec 32) :
    (opts.foldl QOpt.apply s).2 = (opts.map QOpt.bit).foldl (· ||| ·) s.2 := by
  induction opts generalizing s with
  | nil => rfl
  | cons o opts ih => exact ih _

theorem foldl_or_bit (bs : List (BitVec 32)) (f : BitVec 32) (k : ℕ) :
    (bs.foldl (· ||| ·) f).getLsbD k = true ↔
      f.getLsbD k = true ∨ ∃ b ∈ bs, b.getLsbD k = true := by
  induction bs generalizing f with
  | nil => simp
  | cons b bs ih =>
      rw [List.foldl_cons, ih, BitVec.getLsbD_or, Bool.or_eq_true, List.exists_mem_cons_iff,
        or_assoc]

/-- **The parameters that are set.** -/
theorem enterAll_sflag {k : ℕ} (opts : List QOpt) :
    (enterAll opts {}).2.getLsbD k = true ↔ ∃ o ∈ opts, o.bit.getLsbD k = true := by
  unfold enterAll
  rw [foldl_bits, foldl_or_bit]
  simp

/-! ## The parameters of `q start` -/

/-- What `parse_q_cmd` makes of the options. -/
def startQparm (opts : List QOpt) : XcmdQParm :=
  startDefaults (finishQparm (enterAll opts {}).1 (enterAll opts {}).2)

section Parm

variable (opts : List QOpt)

theorem bit_iff (f : BitVec 32) (t : QParmType) :
    f &&& t.bit ≠ 0 ↔ f.getLsbD t.ctorIdx = true := by
  have hbit : t.bit = BitVec.twoPow 32 t.ctorIdx := by cases t <;> rfl
  have hne : BitVec.twoPow 32 t.ctorIdx ≠ 0 := by cases t <;> decide
  rw [hbit, BitVec.and_twoPow]
  by_cases h : f.getLsbD t.ctorIdx = true
  · rw [if_pos h]
    exact iff_of_true hne h
  · rw [if_neg h]
    exact iff_of_false (fun h => h rfl) h

theorem bit_getLsbD (t t' : QParmType) : t.bit.getLsbD t'.ctorIdx = decide (t = t') := by
  cases t <;> cases t' <;> rfl

/-- The default is taken for a streaming queue without a size. -/
theorem startDefaults_eq (q : XcmdQParm) :
    startDefaults q = if q.flags.getLsbD 0 = true ∧ q.sflags &&& QParmType.wrbsz.bit = 0 then
      { q.setFlags startFlags with
        wrbEntrySize := 3, sflags := q.sflags ||| QParmType.wrbsz.bit }
      else q.setFlags startFlags := by
  have hst : (q.setFlags startFlags).flags &&& 1 ≠ 0 ↔ q.flags.getLsbD 0 = true := by
    refine (bit_iff _ .idx).trans ?_
    show (q.flags ||| startFlags).getLsbD 0 = true ↔ _
    rw [BitVec.getLsbD_or, show startFlags.getLsbD 0 = false from rfl, Bool.or_false]
  unfold startDefaults
  simp only [if_true]
  by_cases h1 : q.flags.getLsbD 0 = true
  · rw [if_pos (hst.mpr h1)]
    by_cases h2 : q.sflags &&& QParmType.wrbsz.bit = 0
    · exact (if_pos h2).trans (if_pos ⟨h1, h2⟩).symm
    · exact (if_neg h2).trans (if_neg fun h => h2 h.2).symm
  · exact (if_neg fun h => h1 (hst.mp h)).trans (if_neg fun h => h1 h.1).symm

theorem startDefaults_flags (q : XcmdQParm) : (startDefaults q).flags = q.flags ||| startFlags := by
  rw [startDefaults_eq]
  by_cases h : q.flags.getLsbD 0 = true ∧ q.sflags &&& QParmType.wrbsz.bit = 0
  · rw [if_pos h]
    rfl
  · rw [if_neg h]
    rfl

theorem finishQparm_flags (q : XcmdQParm) (s : BitVec 32) :
    (finishQparm q s).flags
      = q.flags ||| if s &&& QParmType.dir.bit = 0 then xnlFQdirH2c else 0#32 := by
  unfold finishQparm
  by_cases h : s &&& QParmType.dir.bit = 0
  · rw [if_pos h, if_pos h]
    rfl
  · rw [if_neg h, if_neg h]
    exact (BitVec.or_zero).symm

theorem startQparm_flag {k : ℕ} (hk : k ∈ [0, 1, 3, 4, 5, 11, 12]) :
    (startQparm opts).flags.getLsbD k = true ↔ ∃ o ∈ opts, o ∈ flagOpts k := by
  have hk' : k ∈ [0, 1, 2, 3, 4, 5, 11, 12] := by
    simp only [List.mem_cons, List.not_mem_nil, or_false] at hk ⊢
    omega
  have hstart : startFlags.getLsbD k = false := by
    simp only [List.mem_cons, List.not_mem_nil, or_false] at hk
    rcases hk with rfl | rfl | rfl | rfl | rfl | rfl | rfl <;> rfl
  have hh2c : (if (enterAll opts {}).2 &&& QParmType.dir.bit = 0 then xnlFQdirH2c
      else 0#32).getLsbD k = false := by
    by_cases h : (enterAll opts {}).2 &&& QParmType.dir.bit = 0
    · rw [if_pos h]
      simp only [List.mem_cons, List.not_mem_nil, or_false] at hk
      rcases hk with rfl | rfl | rfl | rfl | rfl | rfl | rfl <;> rfl
    · rw [if_neg h]
      exact BitVec.getLsbD_zero
  unfold startQparm
  rw [startDefaults_flags, finishQparm_flags, BitVec.getLsbD_or, BitVec.getLsbD_or, hstart, hh2c,
    Bool.or_false, Bool.or_false]
  exact enterAll_flag hk' opts

/-- The flags that can be disabled are set. -/
theorem startQparm_flag_on {k : ℕ} (hk : k ∈ [6, 7, 8, 9, 10]) :
    (startQparm opts).flags.getLsbD k = true := by
  unfold startQparm
  rw [startDefaults_flags, BitVec.getLsbD_or, Bool.or_eq_true]
  refine .inr ?_
  simp only [List.mem_cons, List.not_mem_nil, or_false] at hk
  rcases hk with rfl | rfl | rfl | rfl | rfl <;> rfl

/-- With C2H asked for, H2C is asked for or not set. -/
theorem startQparm_h2c (hc2h : AsksC2h opts) :
    (startQparm opts).flags.getLsbD 2 = true ↔ AsksH2c opts := by
  have hdir : (enterAll opts {}).2 &&& QParmType.dir.bit ≠ 0 := by
    refine (bit_iff _ .dir).mpr ((enterAll_sflag opts).mpr ?_)
    rcases hc2h with h | h
    · exact ⟨_, h, rfl⟩
    · exact ⟨_, h, rfl⟩
  unfold startQparm
  rw [startDefaults_flags, finishQparm_flags, if_neg hdir, BitVec.or_zero, BitVec.getLsbD_or,
    show startFlags.getLsbD 2 = false from rfl, Bool.or_false, enterAll_flag (by decide)]
  unfold AsksH2c flagOpts
  simp [and_or_left, exists_or]

theorem startDefaults_other (q : XcmdQParm) :
    (startDefaults q).idx = q.idx ∧ (startDefaults q).numQ = q.numQ ∧
      (∀ t : SizeParm, t.get (startDefaults q) = t.get q) ∧
      (startDefaults q).wrbTrigMode = q.wrbTrigMode := by
  rw [startDefaults_eq]
  by_cases h : q.flags.getLsbD 0 = true ∧ q.sflags &&& QParmType.wrbsz.bit = 0
  · rw [if_pos h]
    exact ⟨rfl, rfl, fun t => by cases t <;> rfl, rfl⟩
  · rw [if_neg h]
    exact ⟨rfl, rfl, fun t => by cases t <;> rfl, rfl⟩

theorem finishQparm_other (q : XcmdQParm) (s : BitVec 32) :
    (finishQparm q s).idx = q.idx ∧ (finishQparm q s).numQ = q.numQ ∧
      (∀ t : SizeParm, t.get (finishQparm q s) = t.get q) ∧
      (finishQparm q s).wrbTrigMode = q.wrbTrigMode ∧
      (finishQparm q s).wrbEntrySize = q.wrbEntrySize ∧
      ∀ t : QParmType, t ≠ .dir →
        ((finishQparm q s).sflags &&& t.bit ≠ 0 ↔ s &&& t.bit ≠ 0) := by
  unfold finishQparm
  by_cases h : s &&& QParmType.dir.bit = 0
  · rw [if_pos h]
    refine ⟨rfl, rfl, fun t => by cases t <;> rfl, rfl, rfl, fun t ht => ?_⟩
    rw [bit_iff, bit_iff]
    show (s ||| QParmType.dir.bit).getLsbD _ = true ↔ _
    rw [BitVec.getLsbD_or, show QParmType.dir.bit.getLsbD t.ctorIdx = false by
      cases t <;> first | rfl | exact absurd rfl ht, Bool.or_false]
  · rw [if_neg h]
    exact ⟨rfl, rfl, fun t => by cases t <;> rfl, rfl, rfl, fun _ _ => Iff.rfl⟩

/-- A parameter is set if an option with its bit is there. -/
theorem finishQparm_set {α : Type} {t : QParmType} (ht : t ≠ .dir) {f : QOpt → Option α}
    (hbit : ∀ o : QOpt, o.bit.getLsbD t.ctorIdx = true ↔ f o ≠ none) :
    (finishQparm (enterAll opts {}).1 (enterAll opts {}).2).sflags &&& t.bit ≠ 0 ↔
      lastOf f opts ≠ none := by
  rw [(finishQparm_other _ _).2.2.2.2.2 t ht, bit_iff, enterAll_sflag, ne_eq,
    lastOf_eq_none_iff]
  push Not
  exact exists_congr fun o => and_congr_right fun _ => hbit o

theorem startQparm_set {α : Type} {t : QParmType} (ht : t ≠ .dir) (hw : t ≠ .wrbsz)
    {f : QOpt → Option α} (hbit : ∀ o : QOpt, o.bit.getLsbD t.ctorIdx = true ↔ f o ≠ none) :
    (startQparm opts).sflags &&& t.bit ≠ 0 ↔ lastOf f opts ≠ none := by
  rw [← finishQparm_set opts ht hbit]
  unfold startQparm
  generalize finishQparm (enterAll opts {}).1 (enterAll opts {}).2 = q
  rw [startDefaults_eq]
  by_cases h : q.flags.getLsbD 0 = true ∧ q.sflags &&& QParmType.wrbsz.bit = 0
  · rw [if_pos h, bit_iff, bit_iff]
    show (q.sflags ||| QParmType.wrbsz.bit).getLsbD _ = true ↔ _
    rw [BitVec.getLsbD_or, show QParmType.wrbsz.bit.getLsbD t.ctorIdx = false by
      cases t <;> first | rfl | exact absurd rfl hw, Bool.or_false]
  · rw [if_neg h]
    exact Iff.rfl

/-- A size is that of the last option with it. -/
theorem startQparm_size (t : SizeParm) : t.get (startQparm opts)
    = ((lastOf (QOpt.sizeWord t) opts).map (fun w => wordVal w % 256)).getD 0 := by
  unfold startQparm
  rw [(startDefaults_other _).2.2.1, (finishQparm_other _ _).2.2.1]
  refine (lastOf_enter (g := fun q => t.get q) (v := fun w => wordVal w % 256) ?_ ?_
    ({ idx := xnlQidxInvalid }, 0)).trans (by cases t <;> rfl)
  · intro q o w ho
    cases o with
    | size t' w' =>
        replace ho : (if t' = t then some w' else none) = some w := ho
        by_cases ht : t' = t
        · rw [if_pos ht] at ho
          obtain rfl := Option.some.inj ho
          subst ht
          cases t' <;> rfl
        · rw [if_neg ht] at ho
          exact absurd ho (Option.some_ne_none w).symm
    | _ => exact absurd ho (Option.some_ne_none w).symm
  · intro q o ho
    cases o with
    | size t' w' =>
        replace ho : (if t' = t then some w' else none) = none := ho
        by_cases ht : t' = t
        · rw [if_pos ht] at ho
          exact absurd ho (Option.some_ne_none w')
        · cases t' <;> cases t <;> first | rfl | exact absurd rfl ht
    | flag f => cases f <;> cases t <;> rfl
    | _ => cases t <;> rfl

/-- **A size of the options** is sent if it is given. -/
theorem size_attr (t : SizeParm) :
    (if (startQparm opts).sflags &&& t.type.bit ≠ 0 then some (t.get (startQparm opts)) else none)
      = (lastOf (QOpt.sizeWord t) opts).map (fun w => wordVal w % 256) := by
  have hset : (startQparm opts).sflags &&& t.type.bit ≠ 0 ↔
      lastOf (QOpt.sizeWord t) opts ≠ none := by
    refine startQparm_set opts (by cases t <;> decide) (by cases t <;> decide) (fun o => ?_)
    cases o with
    | size t' w =>
        cases t <;> cases t' <;> simp [QOpt.bit, QOpt.sizeWord, SizeParm.type, bit_getLsbD]
    | _ => cases t <;> simp [QOpt.bit, QOpt.sizeWord, SizeParm.type, bit_getLsbD]
  rw [startQparm_size]
  by_cases h : lastOf (QOpt.sizeWord t) opts = none
  · rw [if_neg (fun h' => hset.mp h' h), h]
    rfl
  · rw [if_pos (hset.mpr h)]
    obtain ⟨w, hw⟩ := Option.ne_none_iff_exists'.mp h
    rw [hw]
    rfl

/-- The trigger mode is that of the last option with one. -/
theorem startQparm_trig : (startQparm opts).wrbTrigMode
    = ((lastOf QOpt.trigWord opts).map (fun w => (trigMode w).getD 0)).getD 0 := by
  unfold startQparm
  rw [(startDefaults_other _).2.2.2, (finishQparm_other _ _).2.2.2.1]
  refine lastOf_enter (g := fun q => q.wrbTrigMode) ?_ ?_ ({ idx := xnlQidxInvalid }, 0)
  · intro q o w ho
    cases o with
    | trigmode w' =>
        obtain rfl := Option.some.inj ho
        rfl
    | _ => exact absurd ho (Option.some_ne_none w).symm
  · intro q o ho
    cases o with
    | trigmode w' => exact absurd ho (Option.some_ne_none w')
    | size t w' => cases t <;> rfl
    | flag f => cases f <;> rfl
    | _ => rfl

/-- **The trigger mode** is sent if it is given. -/
theorem trig_attr :
    (if (startQparm opts).sflags &&& QParmType.wrbTrigMode.bit ≠ 0 then
        some (startQparm opts).wrbTrigMode else none)
      = (lastOf QOpt.trigWord opts).map (fun w => (trigMode w).getD 0) := by
  have hset : (startQparm opts).sflags &&& QParmType.wrbTrigMode.bit ≠ 0 ↔
      lastOf QOpt.trigWord opts ≠ none := by
    refine startQparm_set opts (by decide) (by decide) (fun o => ?_)
    cases o with
    | size t' w => cases t' <;> simp [QOpt.bit, QOpt.trigWord, SizeParm.type, bit_getLsbD]
    | _ => simp [QOpt.bit, QOpt.trigWord, bit_getLsbD]
  rw [startQparm_trig]
  by_cases h : lastOf QOpt.trigWord opts = none
  · rw [if_neg (fun h' => hset.mp h' h), h]
    rfl
  · rw [if_pos (hset.mpr h)]
    obtain ⟨w, hw⟩ := Option.ne_none_iff_exists'.mp h
    rw [hw]
    rfl

/-- The index is that of the last option with one. -/
theorem startQparm_idx :
    (startQparm opts).idx = ((lastOf QOpt.idxWord opts).map wordVal).getD xnlQidxInvalid := by
  unfold startQparm
  rw [(startDefaults_other _).1, (finishQparm_other _ _).1]
  refine lastOf_enter (g := fun q => q.idx) ?_ ?_ ({ idx := xnlQidxInvalid }, 0)
  · intro q o w ho
    cases o with
    | idx w' =>
        obtain rfl := Option.some.inj ho
        rfl
    | list w' n =>
        obtain rfl := Option.some.inj ho
        rfl
    | _ => exact absurd ho (Option.some_ne_none w).symm
  · intro q o ho
    cases o with
    | idx w' => exact absurd ho (Option.some_ne_none w')
    | list w' n => exact absurd ho (Option.some_ne_none w')
    | size t w' => cases t <;> rfl
    | flag f => cases f <;> rfl
    | _ => rfl

/-- It is there, as it is required. -/
theorem idx_given (h : (enterAll opts {}).2 &&& QParmType.idx.bit = QParmType.idx.bit) :
    ∃ w, lastOf QOpt.idxWord opts = some w := by
  have hset : (enterAll opts {}).2.getLsbD 0 = true := by
    refine (bit_iff _ .idx).mp ?_
    rw [h]
    decide
  obtain ⟨o, ho, hbit⟩ := (enterAll_sflag opts).mp hset
  rw [← Option.ne_none_iff_exists', ne_eq, lastOf_eq_none_iff]
  intro hnone
  have hno := hnone o ho
  replace hbit : o.bit.getLsbD QParmType.idx.ctorIdx = true := hbit
  cases o with
  | size t w => cases t <;> simp [QOpt.bit, SizeParm.type, bit_getLsbD] at hbit
  | idx w => exact Option.some_ne_none w hno
  | list w n => exact Option.some_ne_none w hno
  | _ => simp [QOpt.bit, bit_getLsbD] at hbit

/-- **The completion size** is sent if it is given, and on a streaming queue. -/
theorem wrbsz_attr :
    (if (startQparm opts).sflags &&& QParmType.wrbsz.bit ≠ 0 then
        some (startQparm opts).wrbEntrySize else none)
      = match lastOf QOpt.wrbszWord opts with
        | some _ => some (startQparm opts).wrbEntrySize
        | none => if (startQparm opts).flags.getLsbD 0 = true then some 3 else none := by
  have hst : (startQparm opts).flags.getLsbD 0
      = (finishQparm (enterAll opts {}).1 (enterAll opts {}).2).flags.getLsbD 0 := by
    unfold startQparm
    rw [startDefaults_flags, BitVec.getLsbD_or, show startFlags.getLsbD 0 = false from rfl,
      Bool.or_false]
  have hset := finishQparm_set opts (t := .wrbsz) (by decide) (f := QOpt.wrbszWord) (fun o => by
    cases o with
    | size t' w => cases t' <;> simp [QOpt.bit, QOpt.wrbszWord, SizeParm.type, bit_getLsbD]
    | _ => simp [QOpt.bit, QOpt.wrbszWord, bit_getLsbD])
  rw [hst]
  unfold startQparm
  generalize finishQparm (enterAll opts {}).1 (enterAll opts {}).2 = q at hset ⊢
  cases hlast : lastOf QOpt.wrbszWord opts with
  | some w =>
      have hq := hset.mpr (by rw [hlast]; exact Option.some_ne_none w)
      have hsame : startDefaults q = q.setFlags startFlags :=
        (startDefaults_eq q).trans (if_neg fun h => hq h.2)
      rw [hsame]
      exact if_pos hq
  | none =>
      have hq : q.sflags &&& QParmType.wrbsz.bit = 0 :=
        not_not.mp (fun h => hset.mp h hlast)
      by_cases h0 : q.flags.getLsbD 0 = true
      · have hdflt := (startDefaults_eq q).trans (if_pos ⟨h0, hq⟩)
        simp only [if_pos h0]
        rw [hdflt]
        refine if_pos ((bit_iff _ .wrbsz).mpr ?_)
        show (q.sflags ||| QParmType.wrbsz.bit).getLsbD _ = true
        rw [BitVec.getLsbD_or, bit_getLsbD, decide_eq_true rfl, Bool.or_true]
      · have hsame : startDefaults q = q.setFlags startFlags :=
          (startDefaults_eq q).trans (if_neg fun h => h0 h.1)
        simp only [if_neg h0]
        rw [hsame]
        exact if_neg (not_not.mpr hq)

/-- The size that the last word gives, if it is a number. -/
theorem startQparm_wrbsz {w : String} {n : ℕ} (hlast : lastOf QOpt.wrbszWord opts = some w)
    (hn : decVal w = some n) : (startQparm opts).wrbEntrySize = n % 256 := by
  have hget : (enterAll opts {}).1.wrbEntrySize = n % 256 := by
    unfold enterAll
    induction opts using List.reverseRecOn with
    | nil => exact absurd hlast (Option.some_ne_none w).symm
    | append_singleton opts o ih =>
        rw [lastOf_append] at hlast
        rw [List.foldl_append, List.foldl_cons, List.foldl_nil]
        cases o with
        | wrbsz w' =>
            obtain rfl : w' = w := Option.some.inj hlast
            have hscan : ∃ r, scanNumber 10 w'.toList = some (n, r) := by
              unfold decVal at hn
              split at hn
              · next m hm =>
                  obtain rfl := Option.some.inj hn
                  exact ⟨_, hm⟩
              · exact absurd hn (Option.some_ne_none n).symm
            obtain ⟨r, hscan⟩ := hscan
            show sscanfHhu w'.toList _ = _
            unfold sscanfHhu
            rw [hscan]
        | size t w' =>
            refine Eq.trans ?_ (ih hlast)
            cases t <;> rfl
        | flag f =>
            refine Eq.trans ?_ (ih hlast)
            cases f <;> rfl
        | _ => exact ih hlast
  have hset : (finishQparm (enterAll opts {}).1 (enterAll opts {}).2).sflags &&&
      QParmType.wrbsz.bit ≠ 0 := by
    refine (finishQparm_set opts (by decide) (f := QOpt.wrbszWord) (fun o => ?_)).mpr ?_
    · cases o with
      | size t' w => cases t' <;> simp [QOpt.bit, QOpt.wrbszWord, SizeParm.type, bit_getLsbD]
      | _ => simp [QOpt.bit, QOpt.wrbszWord, bit_getLsbD]
    · rw [hlast]
      exact Option.some_ne_none w
  unfold startQparm
  rw [startDefaults_eq, if_neg (fun h => hset h.2)]
  exact ((finishQparm_other _ _).2.2.2.2.1).trans hget

end Parm

/-! ## The message -/

theorem wordVal_lt (w : String) : wordVal w < 2 ^ 32 := Nat.mod_lt _ (by decide)

theorem trigMode_lt (w : String) : (trigMode w).getD 0 < 2 ^ 3 := by
  unfold trigMode
  split_ifs <;> decide

theorem startQparm_numQ_lt (opts : List QOpt) : (startQparm opts).numQ < 2 ^ 32 := by
  unfold startQparm
  rw [(startDefaults_other _).2.1, (finishQparm_other _ _).2.1]
  unfold enterAll
  induction opts using List.reverseRecOn with
  | nil => exact (by decide : 0 < 2 ^ 32)
  | append_singleton opts o ih =>
      rw [List.foldl_append, List.foldl_cons, List.foldl_nil]
      cases o with
      | idx w => exact (by decide : 1 < 2 ^ 32)
      | list w n => exact wordVal_lt n
      | size t w => cases t <;> exact ih
      | flag f => cases f <;> exact ih
      | _ => exact ih

/-- What `validate_qcmd` has seen to. -/
theorem validateStart_ok {q : XcmdQParm} (h : validateStart q = 0) :
    (∀ t : SizeParm, t.get q < 16) ∧ q.wrbEntrySize ≤ 3 := by
  unfold validateStart at h
  by_cases hbad : (!isSizeIdxValid q.c2hBufszIdx || !isSizeIdxValid q.qrngszIdx ||
      !isSizeIdxValid q.wrbCntrIdx || !isSizeIdxValid q.wrbTmrIdx ||
      decide (q.wrbEntrySize > xnlStC2hWrbDescSizeRsvd)) = true
  · rw [if_pos hbad] at h
    exact absurd h (by decide)
  · simp only [isSizeIdxValid, xnlStC2hWrbDescSizeRsvd, Bool.or_eq_true, Bool.not_eq_true',
      decide_eq_false_iff_not, decide_eq_true_eq, not_or, Nat.not_lt, gt_iff_lt] at hbad
    obtain ⟨⟨⟨⟨hbuf, hring⟩, hcntr⟩, htmr⟩, hsz⟩ := hbad
    refine ⟨fun t => ?_, hsz⟩
    cases t with
    | bufsz => exact Nat.not_le.mp hbuf
    | ringsz => exact Nat.not_le.mp hring
    | tmr => exact Nat.not_le.mp htmr
    | cntr => exact Nat.not_le.mp hcntr

/-- A parameter that is set. -/
def ifSet (q : XcmdQParm) (t : QParmType) (v : ℕ) : Option ℕ :=
  if q.sflags &&& t.bit ≠ 0 then some v else none

/-- **What the driver finds** of the parameters of `q start`. -/
structure StartAttrs (q : XcmdQParm) (attrs : InfoAttrs) : Prop where
  qflag : attrs xnlAttrQflag = some q.flags.toNat
  qidx : attrs xnlAttrQidx = some q.idx
  ringsz : attrs xnlAttrQrngszIdx = ifSet q .rngszIdx q.qrngszIdx
  bufsz : attrs xnlAttrC2hBufszIdx = ifSet q .c2hBufszIdx q.c2hBufszIdx
  wrbsz : attrs xnlAttrWrbDescSize = ifSet q .wrbsz q.wrbEntrySize
  tmr : attrs xnlAttrWrbTimerIdx = ifSet q .wrbTmrIdx q.wrbTmrIdx
  cntr : attrs xnlAttrWrbCntrIdx = ifSet q .wrbCntrIdx q.wrbCntrIdx
  trig : attrs xnlAttrWrbTrigMode = ifSet q .wrbTrigMode q.wrbTrigMode

theorem filterMap_attrIfSet (q : XcmdQParm) (p : QParmType) (type v t : ℕ) :
    (attrIfSet q p type v).filterMap (Attr.valueOf t)
      = if type = t then (ifSet q p v).toList else [] := by
  unfold attrIfSet ifSet
  by_cases h : q.sflags &&& p.bit ≠ 0
  · rw [if_pos h, if_pos h]
    by_cases ht : type = t <;> simp [Attr.valueOf, ht]
  · rw [if_neg h, if_neg h]
    by_cases ht : type = t <;> simp [ht]

theorem getLast?_toList (o : Option ℕ) : o.toList.getLast? = o := by
  cases o <;> rfl

theorem cmdAttrs_start {x : XcmdInfo} (hop : x.op = .qStart) :
    cmdAttrs x = .int xnlAttrDevIdx x.ifIdx ::
      (xnlMsgAddExtraConfigAttrs x.qparm ++ queueAttrs x.qparm) := by
  unfold cmdAttrs
  rw [hop]

theorem start_attrs {x : XcmdInfo} (hop : x.op = .qStart) :
    StartAttrs x.qparm (fun t => ((cmdAttrs x).filterMap (Attr.valueOf t)).getLast?) := by
  rw [cmdAttrs_start hop]
  constructor
  all_goals
    simp only [List.filterMap_cons, List.filterMap_append, xnlMsgAddExtraConfigAttrs,
      filterMap_attrIfSet, queueAttrs, Attr.valueOf]
    simp [xnlAttrDevIdx, xnlAttrQidx, xnlAttrNumQ, xnlAttrQflag, xnlAttrWrbDescSize,
      xnlAttrQrngszIdx, xnlAttrC2hBufszIdx, xnlAttrWrbTimerIdx, xnlAttrWrbCntrIdx,
      xnlAttrWrbTrigMode, getLast?_toList]

theorem mem_attrIfSet {q : XcmdQParm} {p : QParmType} {type v : ℕ} {a : Attr}
    (h : a ∈ attrIfSet q p type v) : a = .int type v := by
  unfold attrIfSet at h
  by_cases hset : q.sflags &&& p.bit ≠ 0
  · rw [if_pos hset] at h
    exact List.mem_singleton.mp h
  · rw [if_neg hset] at h
    exact absurd h List.not_mem_nil

theorem attrsLen_int (type v : ℕ) (attrs : List Attr) :
    attrsLen (.int type v :: attrs) = 8 + attrsLen attrs := by
  rw [attrsLen_cons]
  unfold Attr.nlaLen
  rw [Attr.payload, ByteMem.length_bytesLe]
  rfl

theorem attrsLen_attrIfSet (q : XcmdQParm) (p : QParmType) (type v : ℕ) :
    attrsLen (attrIfSet q p type v) ≤ 8 := by
  unfold attrIfSet
  by_cases hset : q.sflags &&& p.bit ≠ 0
  · rw [if_pos hset, attrsLen_int]
    exact le_refl 8
  · rw [if_neg hset]
    decide

/-- The numbers of a start command are 32 bits wide. -/
structure StartFits (x : XcmdInfo) : Prop where
  ifIdx : x.ifIdx < 2 ^ 32
  idx : x.qparm.idx < 2 ^ 32
  numQ : x.qparm.numQ < 2 ^ 32
  size : ∀ t : SizeParm, t.get x.qparm < 2 ^ 32
  wrbsz : x.qparm.wrbEntrySize < 2 ^ 32
  trig : x.qparm.wrbTrigMode < 2 ^ 32

/-- A number of 32 bits can be sent. -/
theorem intAttr_ok {errDebug : Bool} {type v : ℕ}
    (htype : xnlAttrDrvInfo < type ∧ type < xnlAttrMax errDebug) (hv : v < 2 ^ 32) {a : Attr}
    (ha : a = .int type v) : a.Ok errDebug ∧ ∃ type v, a = .int type v := by
  subst ha
  exact ⟨⟨htype.1, htype.2, hv⟩, type, v, rfl⟩

theorem cmdAttrs_ok {x : XcmdInfo} (hop : x.op = .qStart) (h : StartFits x) :
    ∀ a ∈ cmdAttrs x, a.Ok false ∧ ∃ type v, a = .int type v := by
  intro a ha
  rw [cmdAttrs_start hop] at ha
  unfold xnlMsgAddExtraConfigAttrs queueAttrs at ha
  simp only [List.mem_cons, List.mem_append, List.not_mem_nil, or_false] at ha
  rcases ha with ha | (ha | ha | ha | ha | ha | ha) | ha | ha | ha
  · exact intAttr_ok (by decide) h.ifIdx ha
  · exact intAttr_ok (by decide) (h.size .ringsz) (mem_attrIfSet ha)
  · exact intAttr_ok (by decide) (h.size .bufsz) (mem_attrIfSet ha)
  · exact intAttr_ok (by decide) h.wrbsz (mem_attrIfSet ha)
  · exact intAttr_ok (by decide) (h.size .tmr) (mem_attrIfSet ha)
  · exact intAttr_ok (by decide) (h.size .cntr) (mem_attrIfSet ha)
  · exact intAttr_ok (by decide) h.trig (mem_attrIfSet ha)
  · exact intAttr_ok (by decide) h.idx ha
  · exact intAttr_ok (by decide) h.numQ ha
  · exact intAttr_ok (by decide) x.qparm.flags.isLt ha

/-- They fit the buffer. -/
theorem attrsLen_cmdAttrs {x : XcmdInfo} (hop : x.op = .qStart) : attrsLen (cmdAttrs x) ≤ 256 := by
  have hle := attrsLen_attrIfSet x.qparm
  rw [cmdAttrs_start hop, attrsLen_int, attrsLen_append]
  unfold xnlMsgAddExtraConfigAttrs queueAttrs
  rw [attrsLen_append, attrsLen_append, attrsLen_append, attrsLen_append, attrsLen_append]
  have h1 := hle .rngszIdx xnlAttrQrngszIdx x.qparm.qrngszIdx
  have h2 := hle .c2hBufszIdx xnlAttrC2hBufszIdx x.qparm.c2hBufszIdx
  have h3 := hle .wrbsz xnlAttrWrbDescSize x.qparm.wrbEntrySize
  have h4 := hle .wrbTmrIdx xnlAttrWrbTimerIdx x.qparm.wrbTmrIdx
  have h5 := hle .wrbCntrIdx xnlAttrWrbCntrIdx x.qparm.wrbCntrIdx
  have h6 := hle .wrbTrigMode xnlAttrWrbTrigMode x.qparm.wrbTrigMode
  rw [attrsLen_int, attrsLen_int, attrsLen_int]
  have hnil : attrsLen [] = 0 := rfl
  omega

/-- **The driver finds the parameters** of the command that is sent. -/
theorem start_parsed {parse : XnlMsg → InfoAttrs} (hparse : NlaParse parse) (pid family : ℕ)
    {x : XcmdInfo} (hop : x.op = .qStart) (h : StartFits x) :
    StartAttrs x.qparm (parse (xnlSendCmd pid family x)) := by
  have hlen : getCmdRespBufLen x = 256 := by
    unfold getCmdRespBufLen
    rw [hop]
    rfl
  have hok := cmdAttrs_ok hop h
  have hbuilt : Built 256 (xnlSendCmd pid family x) (cmdAttrs x) := by
    unfold xnlSendCmd
    rw [hlen]
    exact xnlMsg_built (by decide) pid family _ (fun a ha => (hok a ha).1) (attrsLen_cmdAttrs hop)
  have hattrs : parse (xnlSendCmd pid family x)
      = fun t => ((cmdAttrs x).filterMap (Attr.valueOf t)).getLast? := by
    funext t
    exact hparse 256 (by decide) _ _ hok (attrsLen_cmdAttrs hop) hbuilt t
  rw [hattrs]
  exact start_attrs hop

/-! ## Decoding -/

/-- A field that gets a parameter if it is set. -/
def fieldOf (q : XcmdQParm) (t : QParmType) (v width dflt : ℕ) : ℕ :=
  ((ifSet q t v).map (· % 2 ^ width)).getD dflt

/-- **What the parameters are decoded to.** -/
structure Decoded (q : XcmdQParm) (c : StartConf) (isQp : Bool) : Prop where
  st : c.st = q.flags.getLsbD 0
  c2h : c.c2h = q.flags.getLsbD 3
  qp : isQp = (q.flags.getLsbD 2 && q.flags.getLsbD 3)
  qidx : c.qidx = q.idx % 2 ^ 16
  bypass : c.bypass = q.flags.getLsbD 5
  pfetchEn : c.pfetchEn = q.flags.getLsbD 4
  wbkEn : c.wbkEn = q.flags.getLsbD 8
  wbkAccEn : c.wbkAccEn = q.flags.getLsbD 7
  wbkPendChk : c.wbkPendChk = q.flags.getLsbD 9
  fetchCredit : c.fetchCredit = q.flags.getLsbD 6
  cmplStatEn : c.cmplStatEn = q.flags.getLsbD 10
  cmplEnIntr : c.cmplEnIntr = q.flags.getLsbD 11
  cmplUddEn : c.cmplUddEn = q.flags.getLsbD 12
  ringsz : c.descRngSzIdx = fieldOf q .rngszIdx q.qrngszIdx 4 0
  cmplRingsz : c.cmplRngSzIdx = fieldOf q .rngszIdx q.qrngszIdx 4 0
  bufsz : c.c2hBufSzIdx = fieldOf q .c2hBufszIdx q.c2hBufszIdx 4 0
  tmr : c.cmplTimerIdx = fieldOf q .wrbTmrIdx q.wrbTmrIdx 4 0
  cntr : c.cmplCntThIdx = fieldOf q .wrbCntrIdx q.wrbCntrIdx 4 0
  wrbsz : c.cmplDescSz = fieldOf q .wrbsz q.wrbEntrySize 2 0
  trig : c.cmplTrigMode = fieldOf q .wrbTrigMode q.wrbTrigMode 3 1

theorem hasFlag_of {f g : BitVec 32} {k : ℕ} (hg : g = BitVec.twoPow 32 k) (hne : g ≠ 0) :
    hasFlag f g = f.getLsbD k := by
  unfold hasFlag
  rw [hg, BitVec.and_twoPow, ← hg]
  by_cases h : f.getLsbD k = true
  · rw [if_pos h, h]
    exact decide_eq_true hne
  · rw [if_neg h, eq_false_of_ne_true h]
    exact decide_eq_false (fun h => h rfl)

/-- A set of two bits is contained. -/
theorem and_two_iff {g : BitVec 32} {a b : ℕ}
    (hg : ∀ k, g.getLsbD k = (decide (a = k) || decide (b = k))) (f : BitVec 32) :
    f &&& g = g ↔ f.getLsbD a = true ∧ f.getLsbD b = true := by
  constructor
  · intro h
    have hget : ∀ k, (f &&& g).getLsbD k = g.getLsbD k := fun k => by rw [h]
    have ha := hget a
    have hb := hget b
    rw [BitVec.getLsbD_and, hg, decide_eq_true rfl, Bool.true_or, Bool.and_true] at ha
    rw [BitVec.getLsbD_and, hg, decide_eq_true (rfl : b = b), Bool.or_true, Bool.and_true] at hb
    exact ⟨ha, hb⟩
  · rintro ⟨ha, hb⟩
    refine BitVec.eq_of_getLsbD_eq (fun k hk => ?_)
    rw [BitVec.getLsbD_and, hg]
    by_cases hka : a = k
    · rw [← hka, ha]
      rfl
    by_cases hkb : b = k
    · rw [← hkb, hb]
      rfl
    rw [decide_eq_false hka, decide_eq_false hkb, Bool.or_false, Bool.and_false]

theorem both_iff (f : BitVec 32) :
    decide (f &&& xnlFQdirBoth = xnlFQdirBoth) = (f.getLsbD 2 && f.getLsbD 3) := by
  have hboth : ∀ k, xnlFQdirBoth.getLsbD k = (decide (2 = k) || decide (3 = k)) := by
    intro k
    show (BitVec.twoPow 32 2 ||| BitVec.twoPow 32 3).getLsbD k = _
    rw [BitVec.getLsbD_or, BitVec.getLsbD_twoPow, BitVec.getLsbD_twoPow]
    rfl
  rw [decide_eq_decide.mpr (and_two_iff hboth f), Bool.decide_and, Bool.decide_eq_true,
    Bool.decide_eq_true]

/-- With both modes the driver refuses. -/
theorem decodeConf_both {q : XcmdQParm} {attrs : InfoAttrs} (h : StartAttrs q attrs)
    (hst : q.flags.getLsbD 0 = true) (hmm : q.flags.getLsbD 1 = true) :
    decodeConf attrs = .error (einval, "ERR! Both ST and MM mode set.\n") := by
  unfold decodeConf qconfGet
  rw [h.qflag]
  simp only [BitVec.ofNat_toNat]
  rw [if_pos ⟨(hasFlag_of rfl (by decide)).trans hst, (hasFlag_of rfl (by decide)).trans hmm⟩]
  rfl

/-- A default leaves the other flags. -/
theorem dflt_getLsbD {f g : BitVec 32} {b : Bool} {k : ℕ} (hg : g.getLsbD k = false) :
    (if b then f ||| g else f).getLsbD k = f.getLsbD k := by
  cases b
  · rfl
  · show (f ||| g).getLsbD k = _
    rw [BitVec.getLsbD_or, hg, Bool.or_false]

/-- The default direction is not both. -/
theorem dirs_dflt {f g : BitVec 32} (h2 : f.getLsbD 2 = g.getLsbD 2)
    (h3 : f.getLsbD 3 = g.getLsbD 3) :
    decide ((if !hasFlag f xnlFQdirH2c && !hasFlag f xnlFQdirC2h then f ||| xnlFQdirH2c else f) &&&
      xnlFQdirBoth = xnlFQdirBoth) = (g.getLsbD 2 && g.getLsbD 3) := by
  rw [both_iff, ← h2, ← h3, hasFlag_of (g := xnlFQdirH2c) (k := 2) rfl (by decide),
    hasFlag_of (g := xnlFQdirC2h) (k := 3) rfl (by decide), dflt_getLsbD (k := 3) rfl]
  cases hf3 : f.getLsbD 3 with
  | false => rw [Bool.and_false, Bool.and_false]
  | true =>
      rw [Bool.not_true, Bool.and_false]
      rfl

/-- **Otherwise it decodes the parameters.** -/
theorem decodeConf_ok {q : XcmdQParm} {attrs : InfoAttrs} (h : StartAttrs q attrs)
    (hmode : ¬ (q.flags.getLsbD 0 = true ∧ q.flags.getLsbD 1 = true)) :
    ∃ c isQp, decodeConf attrs = .ok (c, isQp) ∧ Decoded q c isQp := by
  have hfield : ∀ {type t v} (width dflt : ℕ), attrs type = ifSet q t v →
      attrOr attrs type width dflt = fieldOf q t v width dflt := by
    intro type t v width dflt hattr
    unfold attrOr fieldOf
    rw [hattr]
    cases ifSet q t v <;> rfl
  have hflag : BitVec.ofNat 32 ((attrs xnlAttrQflag).getD 0) = q.flags := by
    rw [h.qflag, Option.getD_some, BitVec.ofNat_toNat, BitVec.setWidth_eq]
  have hmode' : ¬ (hasFlag q.flags xnlFQmodeSt = true ∧ hasFlag q.flags xnlFQmodeMm = true) := by
    rw [hasFlag_of (g := xnlFQmodeSt) (k := 0) rfl (by decide),
      hasFlag_of (g := xnlFQmodeMm) (k := 1) rfl (by decide)]
    exact hmode
  have hgets : ∀ {g : BitVec 32} {k : ℕ}, g = BitVec.twoPow 32 k → g ≠ 0 →
      hasFlag (BitVec.ofNat 32 ((attrs xnlAttrQflag).getD 0)) g = q.flags.getLsbD k := by
    intro g k hg hne
    rw [hflag]
    exact hasFlag_of hg hne
  unfold decodeConf qconfGet
  rw [h.qflag]
  simp only [BitVec.ofNat_toNat, BitVec.setWidth_eq]
  rw [if_neg hmode', h.qidx]
  refine ⟨_, _, rfl, ?_⟩
  constructor
  · exact (hasFlag_of (k := 0) rfl (by decide)).trans ((dflt_getLsbD rfl).trans (dflt_getLsbD rfl))
  · exact (hasFlag_of (k := 3) rfl (by decide)).trans ((dflt_getLsbD rfl).trans (dflt_getLsbD rfl))
  · exact dirs_dflt (dflt_getLsbD rfl) (dflt_getLsbD rfl)
  · show (if q.idx % 2 ^ 16 = xnlQidxInvalid then 0xFFFF else q.idx % 2 ^ 16) = _
    by_cases hinv : q.idx % 2 ^ 16 = xnlQidxInvalid
    · rw [if_pos hinv, hinv]
      rfl
    · rw [if_neg hinv]
  · exact hgets rfl (by decide)
  · exact hgets rfl (by decide)
  · exact hgets rfl (by decide)
  · exact hgets rfl (by decide)
  · exact hgets rfl (by decide)
  · exact hgets rfl (by decide)
  · exact hgets rfl (by decide)
  · exact hgets rfl (by decide)
  · exact hgets rfl (by decide)
  · exact hfield 4 0 h.ringsz
  · exact hfield 4 0 h.ringsz
  · exact hfield 4 0 h.bufsz
  · exact hfield 4 0 h.tmr
  · exact hfield 4 0 h.cntr
  · exact hfield 2 0 h.wrbsz
  · exact hfield 3 1 h.trig

/-! ## Parsing -/

theorem EndsWell.of_ok {α : Type} {P : α → Prop} {r : Parse α} {a : α} (h : EndsWell P r)
    (hr : r = .ok a) : P a := by
  rcases h with herr | ⟨b, hb, hP⟩
  · rw [hr] at herr
    exact absurd herr (by simp)
  · obtain rfl : a = b := Except.ok.inj (hr.symm.trans hb)
    exact hP

section Parse

variable {argv : List String}

/-- The options of a start command, with what is made of them. -/
def StartLine (i : ℕ) (argv : List String) (q : XcmdQParm) : Prop :=
  ∃ opts, (∀ o ∈ opts, QOpt.Ok o) ∧ argv.drop (i + 1) = opts.flatMap QOpt.words ∧
    (enterAll opts {}).2 &&& QParmType.idx.bit = QParmType.idx.bit ∧ q = startQparm opts

/-- Only `start` is one. -/
theorem readQWords_start {i : ℕ} (h : i < argv.length) {w : String} {q : XcmdQParm}
    (hr : readQWords argv i w {} = .ok (.qStart, q)) : StartLine i argv q := by
  have hother : ∀ {op : XnlOp} (q' : XcmdQParm), op ≠ .qStart →
      EndsWell (fun r => r.1 = .qStart → StartLine i argv r.2) (.ok (op, q')) :=
    fun q' hop => .inr ⟨_, rfl, fun h => absurd h hop⟩
  have hdone : ∀ {x : Parse (XnlOp × XcmdQParm)},
      EndsWell (fun r => r.1 = .qStart → StartLine i argv r.2) x →
      x = .ok (.qStart, q) → StartLine i argv q :=
    fun hc hx => hc.of_ok hx rfl
  unfold readQWords at hr
  by_cases h1 : w = "add"
  · rw [if_pos h1] at hr
    refine hdone (readQparm_then h (fun opts _ _ _ => ?_)) hr
    rcases addMode_cases (finishQparm (enterAll opts {}).1 (enterAll opts {}).2) with he | ⟨q, he⟩
    · rw [he]
      exact .inl rfl
    · rw [he]
      exact hother q (by decide)
  rw [if_neg h1] at hr
  by_cases h2 : w = "start"
  · rw [if_pos h2] at hr
    refine hdone (readQparm_then h (fun opts hoks hwords hreq => ?_)) hr
    exact .inr ⟨_, rfl, fun _ => ⟨opts, hoks, hwords, hreq, rfl⟩⟩
  rw [if_neg h2] at hr
  by_cases h3 : w = "stop"
  · rw [if_pos h3] at hr
    exact hdone (readQparm_then h (fun _ _ _ _ => hother _ (by decide))) hr
  rw [if_neg h3] at hr
  by_cases h4 : w = "del"
  · rw [if_pos h4] at hr
    exact hdone (readQparm_then h (fun _ _ _ _ => hother _ (by decide))) hr
  rw [if_neg h4] at hr
  by_cases h5 : w = "dump"
  · rw [if_pos h5] at hr
    refine hdone (readQparm_then h (fun opts _ _ _ => ?_)) hr
    rcases dumpOp_cases (finishQparm (enterAll opts {}).1 (enterAll opts {}).2)
      with he | ⟨op, hop, he⟩
    · rw [he]
      exact .inl rfl
    · rw [he]
      simp only [List.mem_cons, List.not_mem_nil, or_false] at hop
      rcases hop with rfl | rfl | rfl
      · exact hother _ (by decide)
      · exact hother _ (by decide)
      · exact hother _ (by decide)
  rw [if_neg h5] at hr
  by_cases h6 : w = "pkt"
  · rw [if_pos h6] at hr
    exact hdone (readQparm_then h (fun _ _ _ _ => hother _ (by decide))) hr
  · rw [if_neg h6] at hr
    exact absurd hr (by simp)

theorem parseIfname_lt {w : String} {vf : Bool} {n : ℕ} (h : parseIfname w = some (vf, n)) :
    n < 256 := by
  unfold parseIfname at h
  simp only at h
  split_ifs at h
  all_goals
    obtain ⟨-, rfl⟩ := Prod.mk.inj (Option.some.inj h)
    exact Nat.mod_lt _ (by decide)

theorem parseQCmd_start {i : ℕ} (hi : i < argv.length) {x : XcmdInfo} (hq : x.qparm = {})
    {r : XcmdInfo × ℕ} (h : (do
      let r ← parseQCmd argv i x
      parseDone argv r) = .ok r) (hop : r.1.op = .qStart) :
    StartLine i argv r.1.qparm ∧ validateStart r.1.qparm = 0 ∧ r.1.ifIdx = x.ifIdx := by
  unfold parseQCmd at h
  obtain ⟨w, hw, -⟩ := argAt_of_lt hi
  rw [hw, ok_bind] at h
  by_cases hl : w = "list"
  · rw [if_pos hl, ok_bind] at h
    rw [parseDone_ok h] at hop
    exact absurd hop (show XnlOp.qList ≠ .qStart by decide)
  rw [if_neg hl, hq] at h
  cases hr : readQWords argv i w {} with
  | error e =>
      rw [hr] at h
      exact absurd h (by simp [Bind.bind, Except.bind])
  | ok a =>
      obtain ⟨op, q⟩ := a
      rw [hr, ok_bind] at h
      simp only at h
      by_cases hv : validateQcmd op q = 0
      · rw [if_pos hv, ok_bind] at h
        rw [parseDone_ok h] at hop ⊢
        obtain rfl : op = .qStart := hop
        exact ⟨readQWords_start hi hr, hv, rfl⟩
      · rw [if_neg hv] at h
        exact absurd h (by simp [Bind.bind, Except.bind])

/-- Only `q` is followed by it. -/
theorem parseFamily_start {p w f : String} {rest : List String} {x : XcmdInfo}
    {r : XcmdInfo × ℕ} (hdev : w ≠ "dev") (hname : parseIfname w = some (x.vf, x.ifIdx))
    (hx : x.op = .devList) (hq : x.qparm = {})
    (h : parseFamily (p :: w :: f :: rest) f x = .ok r) (hop : r.1.op = .qStart) :
    StartLine 3 (p :: w :: f :: rest) r.1.qparm ∧ validateStart r.1.qparm = 0 ∧
      r.1.ifIdx = x.ifIdx := by
  cases parseFamily_ok hdev hname hx h with
  | reg hline =>
      rcases hline.op with hreg | hreg | hreg <;> exact nomatch hop.symm.trans hreg
  | queue hline => exact parseQCmd_start (by simp only [List.length_cons]; omega) hq hline hop
  | intr hintr _ => exact nomatch hop.symm.trans hintr
  | skipped _ hlist => exact nomatch hop.symm.trans hlist

/-- **A line that is accepted as a start command.** -/
theorem parseCmd_start {xcmd : XcmdInfo} {r : XcmdInfo × ℕ} (h : parseCmd argv xcmd = .ok r)
    (hop : r.1.op = .qStart) :
    StartLine 3 argv r.1.qparm ∧ validateStart r.1.qparm = 0 ∧ r.1.ifIdx < 256 := by
  cases parseCmd_ok h with
  | devices hlist => exact nomatch hop.symm.trans hlist
  | info _ hinfo => exact nomatch hop.symm.trans hinfo
  | device hdev hname hfamily =>
      obtain ⟨hst, hv, hidx⟩ := parseFamily_start hdev hname rfl rfl hfamily hop
      exact ⟨hst, hv, hidx ▸ parseIfname_lt hname⟩

end Parse

/-! ## From the options to the configuration -/

section Arrival

variable {doc : StartDocs} {opts : List QOpt} {c : StartConf} {isQp : Bool}

theorem lastOf_mem {α : Type} {f : QOpt → Option α} {a : α} (h : lastOf f opts = some a) :
    ∃ o ∈ opts, f o = some a := by
  have hmem := List.mem_of_getLast? h
  exact List.mem_filterMap.mp hmem

theorem wordVal_eq (w : String) : wordVal w = typedVal w % 2 ^ 32 := rfl

/-- A size comes through up to its lowest byte. -/
theorem size_field (hv : validateStart (startQparm opts) = 0) (t : SizeParm) :
    fieldOf (startQparm opts) t.type (t.get (startQparm opts)) 4 0
      = ((lastOf (QOpt.sizeWord t) opts).map (fun w => typedVal w % 2 ^ 8)).getD 0 := by
  have hlt := (validateStart_ok hv).1 t
  rw [startQparm_size] at hlt
  unfold fieldOf ifSet
  rw [size_attr]
  cases hlast : lastOf (QOpt.sizeWord t) opts with
  | none => rfl
  | some w =>
      rw [hlast] at hlt
      show wordVal w % 256 % 2 ^ 4 = typedVal w % 2 ^ 8
      replace hlt : wordVal w % 256 < 16 := hlt
      rw [wordVal_eq] at hlt ⊢
      omega

/-- It is the one given if that is a byte. -/
theorem size_given_iff (hv : validateStart (startQparm opts) = 0) (t : SizeParm) :
    fieldOf (startQparm opts) t.type (t.get (startQparm opts)) 4 0 = sizeGiven t opts ↔
      ∀ w, lastOf (QOpt.sizeWord t) opts = some w → typedVal w < 2 ^ 8 := by
  rw [size_field hv]
  unfold sizeGiven
  cases hlast : lastOf (QOpt.sizeWord t) opts with
  | none => exact iff_of_true rfl (fun w hw => absurd hw (Option.some_ne_none w).symm)
  | some w =>
      show typedVal w % 2 ^ 8 = typedVal w ↔ _
      constructor
      · intro heq w' hw'
        obtain rfl := Option.some.inj hw'
        omega
      · intro h
        exact Nat.mod_eq_of_lt (h w rfl)

theorem idx_given_iff (hreq : (enterAll opts {}).2 &&& QParmType.idx.bit = QParmType.idx.bit) :
    (lastOf QOpt.idxWord opts).map typedVal = some ((startQparm opts).idx % 2 ^ 16) ↔
      ∀ w, lastOf QOpt.idxWord opts = some w → typedVal w < 2 ^ 16 := by
  obtain ⟨w, hw⟩ := idx_given opts hreq
  rw [startQparm_idx, hw]
  show some (typedVal w) = some (wordVal w % 2 ^ 16) ↔ _
  rw [Option.some.injEq, wordVal_eq]
  constructor
  · intro heq w' hw'
    obtain rfl := Option.some.inj hw'
    omega
  · intro h
    have := h w rfl
    omega

theorem wrbsz_field (hv : validateStart (startQparm opts) = 0) {w : String}
    (hlast : lastOf QOpt.wrbszWord opts = some w) :
    fieldOf (startQparm opts) .wrbsz (startQparm opts).wrbEntrySize 2 0
      = (startQparm opts).wrbEntrySize := by
  have hle := (validateStart_ok hv).2
  unfold fieldOf ifSet
  rw [wrbsz_attr, hlast]
  show (startQparm opts).wrbEntrySize % 2 ^ 2 = _
  exact Nat.mod_eq_of_lt (Nat.lt_succ_of_le hle)

theorem wrbsz_dflt (hlast : lastOf QOpt.wrbszWord opts = none) :
    fieldOf (startQparm opts) .wrbsz (startQparm opts).wrbEntrySize 2 0
      = if (startQparm opts).flags.getLsbD 0 = true then 3 else 0 := by
  unfold fieldOf ifSet
  rw [wrbsz_attr, hlast]
  simp only
  by_cases h : (startQparm opts).flags.getLsbD 0 = true
  · rw [if_pos h, if_pos h]
    rfl
  · rw [if_neg h, if_neg h]
    rfl

theorem trig_field : fieldOf (startQparm opts) .wrbTrigMode (startQparm opts).wrbTrigMode 3 1
    = ((lastOf QOpt.trigWord opts).map (fun w => (trigMode w).getD 0)).getD 1 := by
  unfold fieldOf ifSet
  rw [trig_attr]
  cases lastOf QOpt.trigWord opts with
  | none => rfl
  | some w => exact Nat.mod_eq_of_lt (trigMode_lt w)

theorem asks_st : (startQparm opts).flags.getLsbD 0 = true ↔ AsksSt opts := by
  rw [startQparm_flag opts (by decide)]
  unfold flagOpts AsksSt
  simp

theorem asks_c2h : (startQparm opts).flags.getLsbD 3 = true ↔ AsksC2h opts := by
  rw [startQparm_flag opts (by decide)]
  unfold flagOpts AsksC2h
  simp [and_or_left, exists_or]

/-- A flag that an option sets. -/
theorem flag_given {k : ℕ} (hk : k ∈ [4, 5, 11, 12]) {f : FlagParm}
    (hf : flagOpts k = [.flag f]) :
    (startQparm opts).flags.getLsbD k = true ↔ QOpt.flag f ∈ opts := by
  have hk' : k ∈ [0, 1, 3, 4, 5, 11, 12] := by
    simp only [List.mem_cons, List.not_mem_nil, or_false] at hk ⊢
    omega
  rw [startQparm_flag opts hk', hf]
  simp

/-- **The configuration is the one asked for exactly when the condition holds.** -/
theorem arrived_iff (hok : ∀ o ∈ opts, QOpt.Ok o)
    (hreq : (enterAll opts {}).2 &&& QParmType.idx.bit = QParmType.idx.bit)
    (hv : validateStart (startQparm opts) = 0) (hd : Decoded (startQparm opts) c isQp)
    (hmode : ¬ (AsksSt opts ∧ QOpt.mode "mm" ∈ opts)) :
    Arrived doc opts c isQp ↔ ArrivesWhen doc opts := by
  have hst : c.st = true ↔ AsksSt opts := by rw [hd.st, asks_st]
  have hc2h : c.c2h = true ↔ AsksC2h opts := by rw [hd.c2h, asks_c2h]
  -- the five options that switch something off
  have hdis : ∀ {b : Bool} {k : ℕ} {f : FlagParm}, b = (startQparm opts).flags.getLsbD k →
      k ∈ [6, 7, 8, 9, 10] → ((b = false ↔ QOpt.flag f ∈ opts) ↔ QOpt.flag f ∉ opts) := by
    rintro b k f rfl hk
    rw [startQparm_flag_on opts hk]
    simp
  constructor
  -- every field that has arrived gives the part of the condition about it
  · intro h
    constructor
    · intro f hf
      cases f with
      | disWbk => exact (hdis hd.wbkEn (by decide)).mp h.wbkEn
      | disWbkAcc => exact (hdis hd.wbkAccEn (by decide)).mp h.wbkAccEn
      | disWbkPendChk => exact (hdis hd.wbkPendChk (by decide)).mp h.wbkPendChk
      | disFetchCredit => exact (hdis hd.fetchCredit (by decide)).mp h.fetchCredit
      | disWrbStat => exact (hdis hd.cmplStatEn (by decide)).mp h.cmplStatEn
      | _ => exact absurd hf (by decide)
    · exact hmode
    · exact (idx_given_iff hreq).mp (hd.qidx ▸ h.qidx)
    · intro t
      cases t with
      | bufsz => exact (size_given_iff hv .bufsz).mp (hd.bufsz.symm.trans h.bufsz)
      | ringsz => exact (size_given_iff hv .ringsz).mp (hd.ringsz.symm.trans h.ringsz)
      | tmr => exact (size_given_iff hv .tmr).mp (hd.tmr.symm.trans h.tmr)
      | cntr => exact (size_given_iff hv .cntr).mp (hd.cntr.symm.trans h.cntr)
    · intro w hw
      refine ⟨_, ?_, h.wrbsz w hw⟩
      rw [hd.wrbsz, wrbsz_field hv hw]
      exact lt_of_le_of_lt (validateStart_ok hv).2 (by decide)
    · intro hw st' c2h' hst' hc2h'
      have hs : st' = c.st := Bool.eq_iff_iff.mpr (hst'.trans hst.symm)
      have hc : c2h' = c.c2h := Bool.eq_iff_iff.mpr (hc2h'.trans hc2h.symm)
      rw [hs, hc, ← h.noWrbsz hw, hd.wrbsz, wrbsz_dflt hw, hd.st]
    · intro w hw
      obtain ⟨o, ho, hword⟩ := lastOf_mem hw
      have hmode' : trigMode w ≠ none := by
        have := hok o ho
        cases o with
        | trigmode w' =>
            obtain rfl := Option.some.inj hword
            exact this
        | _ => exact absurd hword (Option.some_ne_none w).symm
      obtain ⟨m, hm⟩ := Option.ne_none_iff_exists'.mp hmode'
      have htrig := h.trig w hw
      rw [hd.trig, trig_field, hw] at htrig
      rw [← htrig, hm]
      show some m = some ((trigMode w).getD 0)
      rw [hm]
      rfl
    · intro hw
      rw [← h.noTrig hw, hd.trig, trig_field, hw]
      rfl
  -- each field is what the decoder reads out of the words entered for it
  · intro h
    constructor
    · rw [hd.qidx]
      exact (idx_given_iff hreq).mpr h.idx
    · exact hst
    · exact hc2h
    · rw [hd.qp, Bool.and_eq_true, and_comm, asks_c2h]
      exact and_congr_right fun hc => startQparm_h2c opts hc
    · exact hd.ringsz.trans ((size_given_iff hv .ringsz).mpr (h.size .ringsz))
    · exact hd.cmplRingsz.trans ((size_given_iff hv .ringsz).mpr (h.size .ringsz))
    · exact hd.bufsz.trans ((size_given_iff hv .bufsz).mpr (h.size .bufsz))
    · exact hd.tmr.trans ((size_given_iff hv .tmr).mpr (h.size .tmr))
    · exact hd.cntr.trans ((size_given_iff hv .cntr).mpr (h.size .cntr))
    · intro w hw
      obtain ⟨n, hn, hdec⟩ := h.wrbsz w hw
      rw [hd.wrbsz, wrbsz_field hv hw, startQparm_wrbsz opts hw hdec, hdec]
      exact congrArg some (Nat.mod_eq_of_lt hn).symm
    · intro hw
      rw [hd.wrbsz, wrbsz_dflt hw, h.noWrbsz hw c.st c.c2h hst hc2h, hd.st]
    · intro w hw
      rw [hd.trig, trig_field, hw, Option.map_some, h.trig w hw]
      rfl
    · intro hw
      rw [hd.trig, trig_field, hw, h.noTrig hw]
      rfl
    · rw [hd.pfetchEn]
      exact flag_given (by decide) rfl
    · rw [hd.bypass]
      exact flag_given (by decide) rfl
    · rw [hd.cmplEnIntr]
      exact flag_given (by decide) rfl
    · rw [hd.cmplUddEn]
      exact flag_given (by decide) rfl
    · exact (hdis hd.wbkEn (by decide)).mpr (h.enabled _ rfl)
    · exact (hdis hd.wbkAccEn (by decide)).mpr (h.enabled _ rfl)
    · exact (hdis hd.wbkPendChk (by decide)).mpr (h.enabled _ rfl)
    · exact (hdis hd.fetchCredit (by decide)).mpr (h.enabled _ rfl)
    · exact (hdis hd.cmplStatEn (by decide)).mpr (h.enabled _ rfl)

/-- With both modes there is no configuration; otherwise there is one. -/
theorem arrives_iff {attrs : InfoAttrs} (hok : ∀ o ∈ opts, QOpt.Ok o)
    (hreq : (enterAll opts {}).2 &&& QParmType.idx.bit = QParmType.idx.bit)
    (hv : validateStart (startQparm opts) = 0) (h : StartAttrs (startQparm opts) attrs) :
    Arrives doc opts (decodeConf attrs) ↔ ArrivesWhen doc opts := by
  have hmm : (startQparm opts).flags.getLsbD 1 = true ↔ QOpt.mode "mm" ∈ opts := by
    rw [startQparm_flag opts (by decide)]
    unfold flagOpts
    simp
  by_cases hmode : AsksSt opts ∧ QOpt.mode "mm" ∈ opts
  · refine iff_of_false ?_ (fun hw => hw.modes hmode)
    rintro ⟨c, isQp, hconf, -⟩
    rw [decodeConf_both h (asks_st.mpr hmode.1) (hmm.mpr hmode.2)] at hconf
    exact absurd hconf (by simp)
  · obtain ⟨c, isQp, hconf, hd⟩ := decodeConf_ok h (by rw [asks_st, hmm]; exact hmode)
    rw [← arrived_iff hok hreq hv hd hmode, hconf]
    constructor
    · rintro ⟨c', isQp', heq, harr⟩
      obtain ⟨rfl, rfl⟩ := Prod.mk.inj (Except.ok.inj heq)
      exact harr
    · exact fun harr => ⟨c, isQp, rfl, harr⟩

/-- The parameters of a start command fit the message. -/
theorem startFits {x : XcmdInfo} (hq : x.qparm = startQparm opts)
    (hv : validateStart (startQparm opts) = 0) (hidx : x.ifIdx < 256) : StartFits x := by
  obtain ⟨hsize, hwrbsz⟩ := validateStart_ok hv
  constructor
  · omega
  · rw [hq, startQparm_idx]
    cases lastOf QOpt.idxWord opts with
    | none => exact (by decide : xnlQidxInvalid < 2 ^ 32)
    | some w => exact wordVal_lt w
  · rw [hq]
    exact startQparm_numQ_lt opts
  · intro t
    rw [hq]
    exact lt_trans (hsize t) (by decide)
  · rw [hq]
    exact lt_of_le_of_lt hwrbsz (by decide)
  · rw [hq, startQparm_trig]
    cases lastOf QOpt.trigWord opts with
    | none => exact (by decide : 0 < 2 ^ 32)
    | some w => exact lt_trans (trigMode_lt w) (by decide)

end Arrival

/-- **A start command arrives as typed under exactly this condition.** -/
theorem start_arrives_iff (doc : StartDocs) {parse : XnlMsg → InfoAttrs} (hparse : NlaParse parse)
    (pid family : ℕ) {argv : List String} {xcmd : XcmdInfo} {r : XcmdInfo × ℕ}
    (h : parseCmd argv xcmd = .ok r) (hop : r.1.op = .qStart) :
    (∃ opts, Typed argv opts) ∧ ∀ opts, Typed argv opts →
      (Arrives doc opts (decodeConf (parse (xnlSendCmd pid family r.1))) ↔
        ArrivesWhen doc opts) := by
  obtain ⟨⟨opts, hok, hwords, hreq, hq⟩, hv, hidx⟩ := parseCmd_start h hop
  refine ⟨⟨opts, hok, hwords⟩, ?_⟩
  rintro opts' ⟨-, hwords'⟩
  obtain rfl : opts' = opts := flatMap_words_inj (hwords'.symm.trans hwords)
  have hattrs := start_parsed hparse pid family hop (startFits hq (hq ▸ hv) hidx)
  rw [hq] at hattrs hv
  exact arrives_iff hok hreq hv hattrs

/-- The documentation that agrees with the code. -/
def codeDocs : StartDocs where
  trigOf w := (trigMode w).getD 0
  trigDefault := 1
  wrbszDefault st _ := if st then 3 else 0

/-- The documentation of `dmactl.8.gz`: "The default values of all attributes will be 0 if not
provided." -/
def manDocs : StartDocs := { codeDocs with trigDefault := 0, wrbszDefault := fun _ _ => 0 }

/-- **What the man page asks for more**: a command is to have a trigger mode, and one for streaming
a completion size. -/
theorem arrivesWhen_man {opts : List QOpt} :
    ArrivesWhen manDocs opts ↔ ArrivesWhen codeDocs opts ∧
      lastOf QOpt.trigWord opts ≠ none ∧ (AsksSt opts → lastOf QOpt.wrbszWord opts ≠ none) := by
  constructor
  · intro h
    refine ⟨⟨h.enabled, h.modes, h.idx, h.size, h.wrbsz, fun _ _ _ _ _ => rfl, h.trig,
      fun _ => rfl⟩, fun hnone => absurd (h.noTrig hnone) (by decide), fun hst hnone => ?_⟩
    classical
    have hzero := h.noWrbsz hnone true _ (iff_of_true rfl hst) decide_eq_true_iff
    exact absurd hzero (by decide : (0 : ℕ) ≠ 3)
  · rintro ⟨h, htrig, hwrbsz⟩
    refine ⟨h.enabled, h.modes, h.idx, h.size, h.wrbsz, fun hnone st _ hst _ => ?_, h.trig,
      fun hnone => absurd hnone htrig⟩
    rw [if_neg (fun htrue => hwrbsz (hst.mp htrue) hnone)]
    rfl

/-- What is parsed for a streaming queue with a size given twice. -/
def startLine : List String :=
  ["dmactl", "qdma0", "q", "start", "mode", "st", "idx_ringsz", "4", "idx", "3", "pfetch_en",
    "idx_ringsz", "5"]

/-- Its options. -/
def startOpts : List QOpt :=
  [.mode "st", .size .ringsz "4", .idx "3", .flag .pfetchEn, .size .ringsz "5"]

theorem start_arrives_twice :
    Arrives codeDocs startOpts (decodeConf (readAttrs (xnlSendCmd 17 25
      { ifIdx := 0, op := .qStart, qparm := startQparm startOpts }))) := by
  have hparse : parseCmd startLine {} = .ok
      ({ ifIdx := 0, op := .qStart, qparm := startQparm startOpts }, 13) := rfl
  refine ((start_arrives_iff codeDocs readAttrs_parse 17 25 hparse rfl).2 startOpts ?_).mpr ?_
  · refine ⟨fun o ho => ?_, rfl⟩
    simp only [startOpts, List.mem_cons, List.not_mem_nil, or_false] at ho
    rcases ho with rfl | rfl | rfl | rfl | rfl
    · exact (by decide : modeFlag "st" ≠ none)
    · exact (by decide : Readable "4")
    · exact (by decide : Readable "3")
    · trivial
    · exact (by decide : Readable "5")
  · constructor
    · intro f hf hmem
      simp only [startOpts, List.mem_cons, List.not_mem_nil, or_false, reduceCtorEq, false_or,
        QOpt.flag.injEq] at hmem
      rw [hmem] at hf
      exact absurd hf (by decide)
    · rintro ⟨-, hmm⟩
      simp [startOpts] at hmm
    · intro w hw
      obtain rfl : "3" = w := Option.some.inj hw
      decide
    · intro t w hw
      cases t with
      | ringsz =>
          obtain rfl : "5" = w := Option.some.inj hw
          decide
      | _ => exact absurd hw (Option.some_ne_none w).symm
    · exact fun w hw => absurd hw (Option.some_ne_none w).symm
    · exact fun _ _ _ _ _ => rfl
    · exact fun w hw => absurd hw (Option.some_ne_none w).symm
    · exact fun _ => rfl

/-- What fails the condition does not arrive. -/
theorem not_arrives {doc : StartDocs} {opts : List QOpt} (hok : ∀ o ∈ opts, QOpt.Ok o)
    (hreq : (enterAll opts {}).2 &&& QParmType.idx.bit = QParmType.idx.bit)
    (hv : validateStart (startQparm opts) = 0) (hno : ¬ ArrivesWhen doc opts) :
    ¬ Arrives doc opts (decodeConf (readAttrs (xnlSendCmd 17 25
      { ifIdx := 0, op := .qStart, qparm := startQparm opts }))) := by
  intro harr
  have hattrs := start_parsed readAttrs_parse 17 25
    (x := { ifIdx := 0, op := .qStart, qparm := startQparm opts }) rfl
    (startFits rfl hv (show 0 < 256 by decide))
  exact hno ((arrives_iff hok hreq hv hattrs).mp harr)

/-- **`dis_wbk` has no effect**, and a size of 256 is taken for 0.  By the man page not even a start
without options is right. -/
theorem start_not_as_typed :
    parseCmd ["dmactl", "qdma0", "q", "start", "idx", "3", "dis_wbk"] {} = .ok
        ({ ifIdx := 0, op := .qStart, qparm := startQparm [.idx "3", .flag .disWbk] }, 7) ∧
      ¬ Arrives codeDocs [.idx "3", .flag .disWbk] (decodeConf (readAttrs (xnlSendCmd 17 25
        { ifIdx := 0, op := .qStart, qparm := startQparm [.idx "3", .flag .disWbk] }))) ∧
      parseCmd ["dmactl", "qdma0", "q", "start", "idx", "3", "idx_tmr", "256"] {} = .ok
        ({ ifIdx := 0, op := .qStart, qparm := startQparm [.idx "3", .size .tmr "256"] }, 8) ∧
      ¬ Arrives codeDocs [.idx "3", .size .tmr "256"] (decodeConf (readAttrs (xnlSendCmd 17 25
        { ifIdx := 0, op := .qStart, qparm := startQparm [.idx "3", .size .tmr "256"] }))) ∧
      parseCmd ["dmactl", "qdma0", "q", "start", "idx", "3"] {} = .ok
        ({ ifIdx := 0, op := .qStart, qparm := startQparm [.idx "3"] }, 6) ∧
      ¬ Arrives manDocs [.idx "3"] (decodeConf (readAttrs (xnlSendCmd 17 25
        { ifIdx := 0, op := .qStart, qparm := startQparm [.idx "3"] }))) := by
  refine ⟨rfl, ?_, rfl, ?_, rfl, ?_⟩
  · refine not_arrives ?_ rfl rfl (fun h => h.enabled .disWbk rfl (by simp))
    intro o ho
    simp only [List.mem_cons, List.not_mem_nil, or_false] at ho
    rcases ho with rfl | rfl
    · exact (by decide : Readable "3")
    · trivial
  · refine not_arrives ?_ rfl rfl (fun h => absurd (h.size .tmr "256" rfl) (by decide))
    intro o ho
    simp only [List.mem_cons, List.not_mem_nil, or_false] at ho
    rcases ho with rfl | rfl
    · exact (by decide : Readable "3")
    · exact (by decide : Readable "256")
  · refine not_arrives ?_ rfl rfl (fun h => (arrivesWhen_man.mp h).2.1 rfl)
    intro o ho
    rw [List.mem_singleton.mp ho]
    exact (by decide : Readable "3")

end Qdma
