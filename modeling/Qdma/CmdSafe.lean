/-
# What the command line is read as

`parse_cmd` either ends the program with a message, returns a negative number, or returns 0 with
every word read, an operation of the family that the line names, and the member of the union for
it filled in from the line.

`parse_cmd_safe_iff` says for which lines; `parse_cmd_unsafe` has the others: lines that end behind
`dev`, `reg`, `q` or `intring`, where `argv[argc]` is read, a queue command that does not exist,
whose return value is not set, and a word other than `dump` behind `intring`, which is taken for
`dev list`.
-/
import Qdma.QOptions

namespace Qdma

/-! ## The law -/

/-- The register of a read or a write, with the number of a bar if one is given. -/
def barReg (bar : Option String) (a : String) : XcmdReg :=
  match bar with
  | none => { reg := wordVal a, sflags := xcmdRegFRegSet }
  | some n => { bar := wordVal n, reg := wordVal a, sflags := xcmdRegFBarSet ||| xcmdRegFRegSet }

/-- The words for a bar. -/
def barWords : Option String → List String
  | none => []
  | some n => ["bar", n]

/-- The register command that the words are. -/
inductive RegLine : List String → XnlOp → XcmdReg → Prop where
  | dump : RegLine ["dump"] .regDump {}
  | dmap (a b : String) :
      RegLine ["dump", "dmap", a, b] .regDump { rangeStart := wordVal a, rangeEnd := wordVal b }
  | read (bar : Option String) (a : String) :
      RegLine ("read" :: (barWords bar ++ [a])) .regRd (barReg bar a)
  | write (bar : Option String) (a v : String) :
      RegLine ("write" :: (barWords bar ++ [a, v])) .regWrt
        { barReg bar a with val := wordVal v, sflags := (barReg bar a).sflags ||| xcmdRegFValSet }

theorem RegLine.op {words : List String} {op : XnlOp} {r : XcmdReg} (h : RegLine words op r) :
    op = .regDump ∨ op = .regRd ∨ op = .regWrt := by
  cases h <;> simp

/-- What a queue command makes of its options. -/
def qFinish (op : XnlOp) (opts : List QOpt) : Parse XcmdQParm :=
  let q := finishQparm (enterAll opts {}).1 (enterAll opts {}).2
  match op with
  | .qAdd => addMode q
  | .qStart => .ok (startDefaults q)
  | _ => .ok q

/-- The queue commands with options. -/
def qCommands : List (String × XnlOp) :=
  [("add", .qAdd), ("start", .qStart), ("stop", .qStop), ("del", .qDel), ("dump", .qDump),
    ("dump", .qDesc), ("dump", .qWrb), ("pkt", .qRxPkt)]

/-- The queue command that the words are. -/
inductive QLine : List String → XnlOp → XcmdQParm → Prop where
  | list : QLine ["list"] .qList {}
  | opts {w : String} {op : XnlOp} {opts : List QOpt} {q : XcmdQParm}
      (known : (w, op) ∈ qCommands) (ok : ∀ o ∈ opts, QOpt.Ok o)
      (finish : qFinish op opts = .ok q) (ring : w = "dump" → dumpOp q = .ok op) :
      QLine (w :: opts.flatMap QOpt.words) op q

/-- A number that is `dflt` or stands on the line. -/
def OnLine (argv : List String) (dflt v : ℕ) : Prop :=
  v = dflt ∨ ∃ s ∈ argv, v = wordVal s

/-- A dump of an interrupt ring. -/
structure IntrLine (argv : List String) (r : XcmdIntr) : Prop where
  vector : OnLine argv 0 r.vector
  startIdx : OnLine argv 0 r.startIdx
  endIdx : OnLine argv (qdmaMaxIntRingEntries - 1) r.endIdx

/-- **The operation belongs to the family on the line**, and its member of the union is filled. -/
def FilledIn (argv : List String) (x : XcmdInfo) : Prop :=
  match argv with
  | _ :: w :: rest =>
      if w = "dev" then x.op = .devList ∧ rest = ["list"]
      else
        parseIfname w = some (x.vf, x.ifIdx) ∧
          match rest with
          | [] => x.op = .devInfo
          | f :: words =>
              (f = "reg" ∧ RegLine words x.op x.reg) ∨ (f = "q" ∧ QLine words x.op x.qparm) ∨
                (f = "intring" ∧ x.op = .intrRingDump ∧ IntrLine argv x.intr)
  | _ => False

/-- What `parse_cmd` may do. -/
def SafeParse (argv : List String) : Parse (XcmdInfo × ℕ) → Prop
  | .ok (x, i) => i = argv.length ∧ FilledIn argv x
  | .error (.ret rv) => rv < 0
  | .error (.exit _) => True
  | .error _ => False

/-- The names of the queue commands. -/
def qWords : List String := ["list", "add", "start", "stop", "del", "dump", "pkt"]

/-- **The lines that are read safely.** -/
def CmdOk : List String → Prop
  | [_, w] => w ≠ "dev"
  | [_, w, f] => w = "dev" ∨ parseIfname w = none ∨ f ∉ ["reg", "q", "intring"]
  | [_, w, f, c] => w = "dev" ∨ parseIfname w = none ∨
      ((f = "q" → c ∈ qWords) ∧ (f = "intring" → c = "dump"))
  | _ :: w :: f :: c :: _ => w = "dev" ∨ parseIfname w = none ∨ (f = "q" → c ∈ qWords)
  | _ => True

/-! ## Registers -/

/-- A part returns an error, or comes to an end with `P`. -/
def EndsWell {α : Type} (P : α → Prop) (r : Parse α) : Prop :=
  r = .error (.ret einval) ∨ ∃ a, r = .ok a ∧ P a

section Reg

variable {argv : List String} {i : ℕ}

theorem readBarAddr_spec (h : i < argv.length) :
    EndsWell (fun r => ∃ bar a, r.1 = barReg bar a ∧ r.2 < argv.length ∧
      argv.drop (i + 1) = barWords bar ++ a :: argv.drop (r.2 + 1)) (readBarAddr argv i) := by
  unfold readBarAddr
  rcases getNextArg_cases h with ⟨hlt, hget⟩ | ⟨-, hget⟩
  swap
  · rw [hget]
    exact .inl rfl
  obtain ⟨w, hw, -, hdrop⟩ := argAt_of_lt hlt
  rw [hget, ok_bind, hw, ok_bind]
  by_cases hbar : w = "bar"
  · rw [if_pos hbar]
    rcases nextInt_cases hlt with ⟨n, hlt', -, hdrop', -, hint⟩ | hint
    swap
    · rw [hint]
      exact .inl rfl
    rw [hint, ok_bind]
    simp only
    rcases getNextArg_cases hlt' with ⟨hlt'', hget'⟩ | ⟨-, hget'⟩
    swap
    · rw [hget']
      exact .inl rfl
    obtain ⟨a, ha, -, hdrop''⟩ := argAt_of_lt hlt''
    rw [hget', ok_bind, ok_bind]
    simp only
    rw [ha, ok_bind]
    rcases readInt_cases a with ⟨-, hread⟩ | hread
    · rw [hread]
      refine .inr ⟨_, rfl, some n, a, rfl, hlt'', ?_⟩
      rw [hdrop, hdrop', hdrop'', hbar]
      rfl
    · rw [hread]
      exact .inl rfl
  · rw [if_neg hbar, ok_bind]
    simp only
    rw [hw, ok_bind]
    rcases readInt_cases w with ⟨-, hread⟩ | hread
    · rw [hread]
      exact .inr ⟨_, rfl, none, w, rfl, hlt, hdrop⟩
    · rw [hread]
      exact .inl rfl

/-- The words of a register command are one, or the operation stays what it was. -/
theorem readRegWords_spec (h : i < argv.length) (op : XnlOp) :
    EndsWell (fun r => (r.1 = op ∧ r.2.2 = i) ∨ ∃ words, RegLine words r.1 r.2.1 ∧
      argv.drop i = words ++ argv.drop r.2.2 ∧ r.2.2 ≤ argv.length) (readRegWords argv i op) := by
  unfold readRegWords
  obtain ⟨w, hw, -, hdrop⟩ := argAt_of_lt h
  rw [hw, ok_bind]
  by_cases h1 : w = "dump"
  · rw [if_pos h1]
    simp only
    -- `dump` alone, or of a range
    by_cases hlt : i + 1 < argv.length
    · rw [if_pos hlt]
      obtain ⟨w', hw', -, hdrop'⟩ := argAt_of_lt hlt
      rw [hw', ok_bind]
      by_cases hd : w' = "dmap"
      · rw [if_pos hd]
        rcases getNextArg_cases hlt with ⟨hlt', hget⟩ | ⟨-, hget⟩
        swap
        · rw [hget]
          exact .inl rfl
        rw [hget, ok_bind]
        rcases readRange_cases hlt' with ⟨a, b, hlt'', -, -, hrange, -, -, hread⟩ | hread
        · rw [hread]
          refine .inr ⟨_, rfl, .inr ⟨_, .dmap a b, ?_, hlt''⟩⟩
          rw [hdrop, hdrop', hrange, h1, hd]
          rfl
        · rw [hread]
          exact .inl rfl
      · rw [if_neg hd]
        refine .inr ⟨_, rfl, .inr ⟨_, .dump, ?_, hlt.le⟩⟩
        rw [hdrop, h1]
        rfl
    · rw [if_neg hlt]
      refine .inr ⟨_, rfl, .inr ⟨_, .dump, ?_, h⟩⟩
      rw [hdrop, h1]
      rfl
  rw [if_neg h1]
  by_cases h2 : w = "read"
  · rw [if_pos h2]
    rcases readBarAddr_spec h with herr | ⟨⟨r, j⟩, hr, bar, a, hreg, hlt, hbar⟩
    · rw [herr]
      exact .inl rfl
    · obtain rfl : r = barReg bar a := hreg
      rw [hr, ok_bind]
      refine .inr ⟨_, rfl, .inr ⟨_, RegLine.read bar a, ?_, hlt⟩⟩
      rw [hdrop, h2, hbar, List.cons_append, List.append_assoc]
      rfl
  rw [if_neg h2]
  by_cases h3 : w = "write"
  · rw [if_pos h3]
    rcases readBarAddr_spec h with herr | ⟨⟨r, j⟩, hr, bar, a, hreg, hlt, hbar⟩
    · rw [herr]
      exact .inl rfl
    · obtain rfl : r = barReg bar a := hreg
      rw [hr, ok_bind]
      simp only at hlt hbar ⊢
      rcases nextInt_cases hlt with ⟨v, hlt', -, hval, -, hint⟩ | hint
      · rw [hint]
        refine .inr ⟨_, rfl, .inr ⟨_, RegLine.write bar a v, ?_, hlt'⟩⟩
        rw [hdrop, h3, hbar, hval, List.cons_append, List.append_assoc]
        rfl
      · rw [hint]
        exact .inl rfl
  rw [if_neg h3]
  exact .inr ⟨_, rfl, .inl ⟨rfl, rfl⟩⟩

theorem validateRegcmd_cases (op : XnlOp) (r : XcmdReg) :
    validateRegcmd op r = 0 ∨ validateRegcmd op r = einval := by
  cases op
  all_goals first
    | exact .inr rfl
    | exact .inl rfl
    | skip
  all_goals
    unfold validateRegcmd
    simp only
    split_ifs
    · exact .inr rfl
    · exact .inr rfl
    · exact .inl rfl

/-- **`parse_reg_cmd`.** -/
theorem parseRegCmd_spec (h : i < argv.length) (x : XcmdInfo) (hop : x.op = .devList) :
    EndsWell (fun r => r.2 ≤ argv.length ∧ r.1.vf = x.vf ∧ r.1.ifIdx = x.ifIdx ∧
      ∃ words, RegLine words r.1.op r.1.reg ∧ argv.drop i = words ++ argv.drop r.2)
      (parseRegCmd argv i x) := by
  unfold parseRegCmd
  rcases readRegWords_spec h x.op with herr | ⟨⟨op, r, i'⟩, hr, hcase⟩
  · rw [herr]
    exact .inl rfl
  rw [hr, ok_bind]
  simp only
  rcases validateRegcmd_cases op r with hv | hv
  · rcases hcase with ⟨hsame, -⟩ | ⟨words, hline, hdrop, hle⟩
    · -- the word is not known
      obtain rfl : op = XnlOp.devList := hsame.trans hop
      exact absurd hv (show einval ≠ 0 by decide)
    · rw [if_pos hv]
      exact .inr ⟨_, rfl, hle, rfl, rfl, words, hline, hdrop⟩
  · rw [hv, if_neg (show einval ≠ 0 by decide)]
    exact .inl rfl

end Reg

/-! ## Interrupt rings -/

section Intr

variable {argv : List String} {i : ℕ}

theorem nextArgReadInt_cases (h : i < argv.length) :
    (∃ rv, ∃ s ∈ argv, i + 1 < argv.length ∧
        nextArgReadInt argv i = .ok (rv, i + 1, some (wordVal s))) ∨
      nextArgReadInt argv i = .ok (einval, i, none) := by
  unfold nextArgReadInt
  rcases getNextArg_cases h with ⟨hlt, hget⟩ | ⟨-, hget⟩
  · obtain ⟨s, hs, hmem, -⟩ := argAt_of_lt hlt
    rw [hget]
    simp only
    rw [hs, ok_bind]
    exact .inl ⟨_, s, hmem, hlt, rfl⟩
  · rw [hget]
    exact .inr rfl

/-- The vector is on the line, or 0. -/
theorem readVector_spec (h : i < argv.length) :
    EndsWell (fun r => OnLine argv 0 r.2 ∧ r.1 < argv.length) (readVector argv i) := by
  unfold readVector
  rcases getNextArg_cases h with ⟨hlt, hget⟩ | ⟨-, hget⟩
  swap
  · rw [hget]
    exact .inl rfl
  obtain ⟨w, hw, -⟩ := argAt_of_lt hlt
  rw [hget, ok_bind, hw, ok_bind]
  by_cases hv : w = "vector"
  · rw [if_pos hv]
    rcases nextInt_cases hlt with ⟨s, hlt', hmem, -, -, hint⟩ | hint
    · rw [hint]
      exact .inr ⟨_, rfl, .inr ⟨s, hmem, rfl⟩, hlt'⟩
    · rw [hint]
      exact .inl rfl
  · rw [if_neg hv]
    exact .inr ⟨_, rfl, .inl rfl, hlt⟩

/-- **`parse_intr_cmd`** behind `dump`. -/
theorem parseIntrCmd_dump (h : i < argv.length) (hw : argAt argv i = .ok "dump") (x : XcmdInfo) :
    EndsWell (fun r => r.2 ≤ argv.length ∧ r.1.vf = x.vf ∧ r.1.ifIdx = x.ifIdx ∧
      r.1.op = .intrRingDump ∧ IntrLine argv r.1.intr) (parseIntrCmd argv i x) := by
  unfold parseIntrCmd
  rw [hw, ok_bind, if_pos rfl]
  simp only
  rcases readVector_spec h with herr | ⟨⟨j, v⟩, hv, hon, hj⟩
  · rw [herr]
    exact .inl rfl
  rw [hv, ok_bind]
  simp only at hon hj ⊢
  rcases nextArgReadInt_cases hj with ⟨rv, s, hs, hj', hnext⟩ | hnext
  swap
  · rw [hnext, ok_bind]
    exact .inr ⟨_, rfl, hj, rfl, rfl, rfl, hon, .inl rfl, .inl rfl⟩
  rw [hnext, ok_bind]
  simp only
  by_cases hrv : rv < 0
  · rw [if_pos hrv]
    exact .inr ⟨_, rfl, hj', rfl, rfl, rfl, hon, .inl rfl, .inl rfl⟩
  rw [if_neg hrv]
  rcases nextArgReadInt_cases hj' with ⟨rv', s', hs', hj'', hnext'⟩ | hnext'
  · rw [hnext', ok_bind]
    refine .inr ⟨_, rfl, hj'', rfl, rfl, rfl, hon, .inr ⟨s, hs, rfl⟩, ?_⟩
    show OnLine argv _ (if rv' < 0 then qdmaMaxIntRingEntries - 1 else wordVal s')
    by_cases hrv' : rv' < 0
    · rw [if_pos hrv']
      exact .inl rfl
    · rw [if_neg hrv']
      exact .inr ⟨s', hs', rfl⟩
  · rw [hnext', ok_bind]
    exact .inr ⟨_, rfl, hj', rfl, rfl, rfl, hon, .inr ⟨s, hs, rfl⟩, .inl rfl⟩

end Intr

/-! ## Queues -/

section Queue

variable {argv : List String} {i : ℕ}

theorem addMode_cases (q : XcmdQParm) :
    addMode q = .error (.ret einval) ∨ ∃ q', addMode q = .ok q' := by
  unfold addMode
  split_ifs
  · exact .inl rfl
  · exact .inr ⟨_, rfl⟩
  · exact .inr ⟨_, rfl⟩

theorem dumpOp_cases (q : XcmdQParm) :
    dumpOp q = .error (.ret einval) ∨ ∃ op ∈ [XnlOp.qDump, .qDesc, .qWrb], dumpOp q = .ok op := by
  unfold dumpOp
  split_ifs
  · exact .inl rfl
  · exact .inr ⟨.qDesc, by decide, rfl⟩
  · exact .inr ⟨.qWrb, by decide, rfl⟩
  · exact .inr ⟨.qDump, by decide, rfl⟩

/-- What follows the name of a queue command is read, and `f` goes on with it. -/
theorem readQparm_then (h : i < argv.length) {P : XnlOp × XcmdQParm → Prop}
    {f : XcmdQParm → Parse (XnlOp × XcmdQParm)}
    (hf : ∀ opts, (∀ o ∈ opts, QOpt.Ok o) → argv.drop (i + 1) = opts.flatMap QOpt.words →
      (enterAll opts {}).2 &&& QParmType.idx.bit = QParmType.idx.bit →
      EndsWell P (f (finishQparm (enterAll opts {}).1 (enterAll opts {}).2))) :
    EndsWell P (do
      let i ← getNextArg argv i
      let q ← readQparm argv i {} QParmType.idx.bit
      f q) := by
  rcases getNextArg_cases h with ⟨hlt, hget⟩ | ⟨-, hget⟩
  swap
  · rw [hget]
    exact .inl rfl
  rw [hget, ok_bind]
  rcases readQparm_spec hlt.le {} QParmType.idx.bit with herr | ⟨opts, hoks, hwords, hreq, hq⟩
  · rw [herr]
    exact .inl rfl
  · rw [hq, ok_bind]
    exact hf opts hoks hwords hreq

/-- The commands that take what they read, with no check that can fail. -/
theorem plainLine_spec (h : i < argv.length) {w : String}
    (hdrop : argv.drop i = w :: argv.drop (i + 1)) {op : XnlOp} (hop : (w, op) ∈ qCommands)
    (hdump : w ≠ "dump") {g : XcmdQParm → XcmdQParm}
    (hfin : ∀ opts, qFinish op opts = .ok (g (finishQparm (enterAll opts {}).1
      (enterAll opts {}).2))) :
    EndsWell (fun r => QLine (argv.drop i) r.1 r.2) (do
      let i ← getNextArg argv i
      let q ← readQparm argv i {} QParmType.idx.bit
      .ok (op, g q)) := by
  refine readQparm_then h (fun opts hoks hwords _ => ?_)
  rw [hdrop, hwords]
  exact .inr ⟨_, rfl, .opts hop hoks (hfin opts) (fun hd => absurd hd hdump)⟩

/-- A queue command with its options, or an error. -/
theorem readQWords_spec (h : i < argv.length) {w : String}
    (hdrop : argv.drop i = w :: argv.drop (i + 1)) (hw : w ∈ qWords) (hlist : w ≠ "list") :
    EndsWell (fun r => QLine (argv.drop i) r.1 r.2) (readQWords argv i w {}) := by
  unfold readQWords
  by_cases h1 : w = "add"
  · -- both modes at once is an error
    subst h1
    rw [if_pos rfl]
    refine readQparm_then h (fun opts hoks hwords _ => ?_)
    rw [hdrop, hwords]
    rcases addMode_cases (finishQparm (enterAll opts {}).1 (enterAll opts {}).2) with he | ⟨q, he⟩
    · rw [he]
      exact .inl rfl
    · rw [he]
      exact .inr ⟨_, rfl, .opts (show ("add", XnlOp.qAdd) ∈ qCommands by decide) hoks he
      (fun hd => absurd hd (by decide))⟩
  rw [if_neg h1]
  by_cases h2 : w = "start"
  · subst h2
    rw [if_pos rfl]
    exact plainLine_spec h hdrop (by decide) (by decide) (fun _ => rfl)
  rw [if_neg h2]
  by_cases h3 : w = "stop"
  · subst h3
    rw [if_pos rfl]
    exact plainLine_spec h hdrop (by decide) (by decide) (fun _ => rfl)
  rw [if_neg h3]
  by_cases h4 : w = "del"
  · subst h4
    rw [if_pos rfl]
    exact plainLine_spec h hdrop (by decide) (by decide) (fun _ => rfl)
  rw [if_neg h4]
  by_cases h5 : w = "dump"
  · -- which operation it is depends on the ranges given
    subst h5
    rw [if_pos rfl]
    refine readQparm_then h (fun opts hoks hwords _ => ?_)
    rw [hdrop, hwords]
    rcases dumpOp_cases (finishQparm (enterAll opts {}).1 (enterAll opts {}).2)
      with he | ⟨op, hop, he⟩
    · rw [he]
      exact .inl rfl
    · rw [he]
      refine .inr ⟨_, rfl, ?_⟩
      simp only [List.mem_cons, List.not_mem_nil, or_false] at hop
      rcases hop with rfl | rfl | rfl
      · exact .opts (show ("dump", XnlOp.qDump) ∈ qCommands by decide) hoks rfl (fun _ => he)
      · exact .opts (show ("dump", XnlOp.qDesc) ∈ qCommands by decide) hoks rfl (fun _ => he)
      · exact .opts (show ("dump", XnlOp.qWrb) ∈ qCommands by decide) hoks rfl (fun _ => he)
  rw [if_neg h5]
  have h6 : w = "pkt" := by
    simp only [qWords, List.mem_cons, List.not_mem_nil, or_false] at hw
    tauto
  subst h6
  rw [if_pos rfl]
  exact plainLine_spec h hdrop (by decide) (by decide) (fun _ => rfl)

/-- Behind a word that is no queue command nothing is set. -/
theorem readQWords_unknown {w : String} (hw : w ∉ qWords) (q : XcmdQParm) :
    readQWords argv i w q = .error .uninit := by
  have hne : ∀ v ∈ qWords, w ≠ v := fun v hv h => hw (h ▸ hv)
  unfold readQWords
  rw [if_neg (hne "add" (by decide)), if_neg (hne "start" (by decide)),
    if_neg (hne "stop" (by decide)), if_neg (hne "del" (by decide)),
    if_neg (hne "dump" (by decide)), if_neg (hne "pkt" (by decide))]

theorem validateQcmd_cases (op : XnlOp) (q : XcmdQParm) :
    validateQcmd op q = 0 ∨ validateQcmd op q = einval := by
  have hstart : validateStart q = 0 ∨ validateStart q = einval := by
    unfold validateStart
    split_ifs
    · exact .inr rfl
    · exact .inr rfl
    · exact .inr rfl
    · exact .inl rfl
    · exact .inl rfl
  unfold validateQcmd
  cases op
  all_goals first
    | exact .inr rfl
    | exact .inl rfl
    | exact hstart
    | skip
  all_goals
    simp only
    split_ifs
    · exact .inr rfl
    · exact .inl rfl

/-- **`parse_q_cmd`** behind a queue command. -/
theorem parseQCmd_spec {w : String} (h : i < argv.length) (hw : argAt argv i = .ok w)
    (hdrop : argv.drop i = w :: argv.drop (i + 1)) (hmem : w ∈ qWords) (x : XcmdInfo)
    (hq : x.qparm = {}) :
    EndsWell (fun r => r.2 ≤ argv.length ∧ r.1.vf = x.vf ∧ r.1.ifIdx = x.ifIdx ∧
      (r.2 = argv.length → QLine (argv.drop i) r.1.op r.1.qparm)) (parseQCmd argv i x) := by
  unfold parseQCmd
  rw [hw, ok_bind]
  by_cases hl : w = "list"
  · rw [if_pos hl]
    refine .inr ⟨_, rfl, h, rfl, rfl, fun hlen => ?_⟩
    have hnil : argv.drop (i + 1) = [] := List.drop_eq_nil_of_le hlen.ge
    rw [hdrop, hnil, hl]
    show QLine ["list"] .qList x.qparm
    rw [hq]
    exact .list
  rw [if_neg hl, hq]
  rcases readQWords_spec h hdrop hmem hl with herr | ⟨⟨op, q⟩, hr, hline⟩
  · rw [herr]
    exact .inl rfl
  rw [hr, ok_bind]
  simp only
  rcases validateQcmd_cases op q with hv | hv
  · rw [if_pos hv]
    exact .inr ⟨_, rfl, le_refl _, rfl, rfl, fun _ => hline⟩
  · rw [hv, if_neg (show einval ≠ 0 by decide)]
    exact .inl rfl

end Queue

/-! ## The whole line -/

section Line

variable {argv : List String} {p w f c : String} {rest : List String}

theorem parseDone_ok {a r : XcmdInfo × ℕ} (h : parseDone argv a = .ok r) : r = a := by
  unfold parseDone at h
  by_cases hlt : a.2 < argv.length
  · obtain ⟨w, hw, -⟩ := argAt_of_lt hlt
    rw [if_pos hlt, hw] at h
    exact absurd h (by simp [Bind.bind, Except.bind])
  · rw [if_neg hlt] at h
    exact (Except.ok.inj h).symm

/-- What is left over is an error. -/
theorem parseDone_safe {r : XcmdInfo × ℕ} (hle : r.2 ≤ argv.length)
    (hfill : r.2 = argv.length → FilledIn argv r.1) : SafeParse argv (parseDone argv r) := by
  unfold parseDone
  by_cases hlt : r.2 < argv.length
  · rw [if_pos hlt]
    obtain ⟨w, hw, -⟩ := argAt_of_lt hlt
    rw [hw]
    show einval < 0
    decide
  · rw [if_neg hlt]
    have heq : r.2 = argv.length := le_antisymm hle (Nat.le_of_not_lt hlt)
    exact ⟨heq, hfill heq⟩

theorem EndsWell.done {P : XcmdInfo × ℕ → Prop} {r : Parse (XcmdInfo × ℕ)} (h : EndsWell P r)
    (hP : ∀ a, P a → a.2 ≤ argv.length ∧ (a.2 = argv.length → FilledIn argv a.1)) :
    SafeParse argv (do
      let r ← r
      parseDone argv r) := by
  rcases h with herr | ⟨a, ha, hPa⟩
  · rw [herr]
    show einval < 0
    decide
  · rw [ha, ok_bind]
    exact parseDone_safe (hP a hPa).1 (hP a hPa).2

/-- The line of a device: what is behind its name. -/
def parseFamily (argv : List String) (f : String) (x : XcmdInfo) : Parse (XcmdInfo × ℕ) :=
  if f = "reg" then do
    let r ← parseRegCmd argv 3 x
    parseDone argv r
  else if f = "q" then do
    let r ← parseQCmd argv 3 x
    parseDone argv r
  else if f = "intring" then do
    let r ← parseIntrCmd argv 3 x
    parseDone argv r
  else .error (.ret einval)

theorem parseCmd_dev (xcmd : XcmdInfo) :
    parseCmd (p :: "dev" :: rest) xcmd = (do
      let r ← parseDevCmd (p :: "dev" :: rest) 2 {}
      parseDone (p :: "dev" :: rest) r) := by
  unfold parseCmd
  simp only [List.length_cons]
  rw [if_neg (by omega), show argAt (p :: "dev" :: rest) 1 = .ok "dev" from rfl, ok_bind,
    if_neg (fun h => absurd h.2 (by decide)), if_neg (fun h => absurd h.2 (by decide)), if_pos rfl]

/-- More than two words, and no `dev`. -/
theorem parseCmd_family (hdev : w ≠ "dev") (xcmd : XcmdInfo) :
    parseCmd (p :: w :: f :: rest) xcmd = match parseIfname w with
      | none => .error (.ret einval)
      | some (vf, ifIdx) =>
          parseFamily (p :: w :: f :: rest) f { vf := vf, ifIdx := ifIdx } := by
  unfold parseCmd
  simp only [List.length_cons]
  rw [if_neg (by omega), show argAt (p :: w :: f :: rest) 1 = .ok w from rfl, ok_bind,
    if_neg (fun h => absurd h.1 (by omega)), if_neg (fun h => absurd h.1 (by omega)),
    if_neg hdev]
  cases parseIfname w with
  | none => rfl
  | some d =>
      simp only
      rw [if_neg (by omega), show argAt (p :: w :: f :: rest) 2 = .ok f from rfl, ok_bind]
      rfl

/-- One word, or two. -/
theorem parseCmd_short (xcmd : XcmdInfo) :
    SafeParse [p] (parseCmd [p] xcmd) ∧
      (SafeParse [p, w] (parseCmd [p, w] xcmd) ↔ w ≠ "dev") := by
  refine ⟨trivial, ?_⟩
  by_cases hdev : w = "dev"
  · subst hdev
    rw [parseCmd_dev]
    exact ⟨fun h => h.elim, fun h => absurd rfl h⟩
  refine iff_of_true ?_ hdev
  unfold parseCmd
  simp only [List.length_cons, List.length_nil]
  rw [if_neg (by omega), show argAt [p, w] 1 = .ok w from rfl, ok_bind]
  by_cases h1 : w = "?" ∨ w = "-h" ∨ w = "help" ∨ w = "--help"
  · rw [if_pos ⟨trivial, h1⟩]
    trivial
  rw [if_neg (fun h => h1 h.2)]
  by_cases h2 : w = "-v" ∨ w = "--version"
  · rw [if_pos ⟨trivial, h2⟩]
    trivial
  rw [if_neg (fun h => h2 h.2), if_neg hdev]
  cases hname : parseIfname w with
  | none =>
      show einval < 0
      decide
  | some d =>
      simp only
      rw [if_pos trivial]
      refine parseDone_safe (le_refl 2) (fun _ => ?_)
      show if w = "dev" then _ else _
      rw [if_neg hdev]
      exact ⟨hname, rfl⟩

/-- `dev` and a word behind it. -/
theorem parseCmd_dev_safe (xcmd : XcmdInfo) :
    SafeParse (p :: "dev" :: f :: rest) (parseCmd (p :: "dev" :: f :: rest) xcmd) := by
  rw [parseCmd_dev]
  unfold parseDevCmd
  rw [show argAt (p :: "dev" :: f :: rest) 2 = .ok f from rfl, ok_bind]
  by_cases hl : f = "list"
  · rw [if_pos hl, ok_bind]
    refine parseDone_safe (by simp only [List.length_cons]; omega) (fun hlen => ?_)
    have hnil : rest = [] := by
      simp only [List.length_cons] at hlen
      exact List.length_eq_zero_iff.mp (by omega)
    rw [hl, hnil]
    exact ⟨rfl, rfl⟩
  · rw [if_neg hl, ok_bind]
    refine parseDone_safe (by simp only [List.length_cons]; omega) (fun hlen => ?_)
    simp only [List.length_cons] at hlen
    omega

/-- What the line of a device must not have behind the family. -/
def FamilyOk (f : String) : List String → Prop
  | [] => f ∉ ["reg", "q", "intring"]
  | [c] => (f = "q" → c ∈ qWords) ∧ (f = "intring" → c = "dump")
  | c :: _ => f = "q" → c ∈ qWords

theorem parseReg_safe {x : XcmdInfo} (hdev : w ≠ "dev")
    (hname : parseIfname w = some (x.vf, x.ifIdx)) (hop : x.op = .devList) :
    SafeParse (p :: w :: "reg" :: c :: rest) (do
      let r ← parseRegCmd (p :: w :: "reg" :: c :: rest) 3 x
      parseDone (p :: w :: "reg" :: c :: rest) r) := by
  refine (parseRegCmd_spec (by simp only [List.length_cons]; omega) x hop).done ?_
  rintro ⟨y, j⟩ ⟨hle, hvf, hidx, words, hline, hdrop⟩
  refine ⟨hle, fun hlen => ?_⟩
  show if w = "dev" then _ else _
  rw [if_neg hdev]
  refine ⟨by rw [hname, hvf, hidx], .inl ⟨rfl, ?_⟩⟩
  have hwords : c :: rest = words := by
    rw [List.drop_eq_nil_of_le (le_of_eq hlen.symm), List.append_nil] at hdrop
    exact hdrop
  rw [hwords]
  exact hline

theorem parseQ_safe {x : XcmdInfo} (hdev : w ≠ "dev")
    (hname : parseIfname w = some (x.vf, x.ifIdx)) (hq : x.qparm = {}) (hc : c ∈ qWords) :
    SafeParse (p :: w :: "q" :: c :: rest) (do
      let r ← parseQCmd (p :: w :: "q" :: c :: rest) 3 x
      parseDone (p :: w :: "q" :: c :: rest) r) := by
  refine (parseQCmd_spec (w := c) (by simp only [List.length_cons]; omega) rfl rfl hc x hq).done ?_
  rintro ⟨y, j⟩ ⟨hle, hvf, hidx, hline⟩
  refine ⟨hle, fun hlen => ?_⟩
  show if w = "dev" then _ else _
  rw [if_neg hdev]
  exact ⟨by rw [hname, hvf, hidx], .inr (.inl ⟨rfl, hline hlen⟩)⟩

theorem parseIntr_safe {x : XcmdInfo} (hdev : w ≠ "dev")
    (hname : parseIfname w = some (x.vf, x.ifIdx)) :
    SafeParse (p :: w :: "intring" :: "dump" :: rest) (do
      let r ← parseIntrCmd (p :: w :: "intring" :: "dump" :: rest) 3 x
      parseDone (p :: w :: "intring" :: "dump" :: rest) r) := by
  refine (parseIntrCmd_dump (by simp only [List.length_cons]; omega) rfl x).done ?_
  rintro ⟨y, j⟩ ⟨hle, hvf, hidx, hop, hline⟩
  refine ⟨hle, fun _ => ?_⟩
  show if w = "dev" then _ else _
  rw [if_neg hdev]
  exact ⟨by rw [hname, hvf, hidx], .inr (.inr ⟨rfl, hop, hline⟩)⟩

/-- A word other than `dump` behind `intring` is skipped. -/
theorem parseIntr_other (hc : c ≠ "dump") (x : XcmdInfo) :
    parseIntrCmd (p :: w :: "intring" :: c :: rest) 3 x = .ok (x, 4) := by
  unfold parseIntrCmd
  rw [show argAt (p :: w :: "intring" :: c :: rest) 3 = .ok c from rfl, ok_bind, if_neg hc]

/-- **The line of a device.** -/
theorem parseFamily_safe_iff {x : XcmdInfo} (hdev : w ≠ "dev")
    (hname : parseIfname w = some (x.vf, x.ifIdx)) (hop : x.op = .devList) (hq : x.qparm = {}) :
    SafeParse (p :: w :: f :: rest) (parseFamily (p :: w :: f :: rest) f x) ↔
      FamilyOk f rest := by
  unfold parseFamily
  by_cases h1 : f = "reg"
  · subst h1
    rw [if_pos rfl]
    cases rest with
    | nil => exact ⟨fun h => h.elim, fun h => absurd (by decide) h⟩
    | cons c rest =>
        refine iff_of_true (parseReg_safe hdev hname hop) ?_
        cases rest with
        | nil => exact ⟨fun h => absurd h (by decide), fun h => absurd h (by decide)⟩
        | cons _ _ => exact fun h => absurd h (by decide)
  rw [if_neg h1]
  by_cases h2 : f = "q"
  · subst h2
    rw [if_pos rfl]
    cases rest with
    | nil => exact ⟨fun h => h.elim, fun h => absurd (by decide) h⟩
    | cons c rest =>
        have hok : FamilyOk "q" (c :: rest) ↔ c ∈ qWords := by
          cases rest with
          | nil => exact ⟨fun h => h.1 rfl, fun h => ⟨fun _ => h, fun h => absurd h (by decide)⟩⟩
          | cons _ _ => exact ⟨fun h => h rfl, fun h _ => h⟩
        rw [hok]
        by_cases hc : c ∈ qWords
        · exact iff_of_true (parseQ_safe hdev hname hq hc) hc
        · -- any other word leaves the operation unset
          refine iff_of_false (fun h => ?_) hc
          have hlist : c ≠ "list" := fun h => hc (h ▸ by decide)
          unfold parseQCmd at h
          rw [show argAt (p :: w :: "q" :: c :: rest) 3 = .ok c from rfl, ok_bind, if_neg hlist,
            readQWords_unknown hc] at h
          exact h
  rw [if_neg h2]
  by_cases h3 : f = "intring"
  · subst h3
    rw [if_pos rfl]
    cases rest with
    | nil => exact ⟨fun h => h.elim, fun h => absurd (by decide) h⟩
    | cons c rest =>
        by_cases hc : c = "dump"
        · subst hc
          refine iff_of_true (parseIntr_safe hdev hname) ?_
          cases rest with
          | nil => exact ⟨fun h => absurd h (by decide), fun _ => rfl⟩
          | cons _ _ => exact fun h => absurd h (by decide)
        rw [parseIntr_other hc, ok_bind]
        cases rest with
        | nil =>
            -- `intring` and an unknown word: accepted, as the list of devices
            refine iff_of_false (fun h => ?_) (fun h => hc (h.2 rfl))
            obtain ⟨-, hfill⟩ := h
            replace hfill : if w = "dev" then _ else _ := hfill
            rw [if_neg hdev] at hfill
            rcases hfill.2 with ⟨hf, -⟩ | ⟨hf, -⟩ | ⟨-, hx, -⟩
            · exact absurd hf (by decide)
            · exact absurd hf (by decide)
            · rw [hop] at hx
              exact absurd hx (by decide)
        | cons d rest =>
            refine iff_of_true ?_ (fun h => absurd h (by decide))
            refine parseDone_safe (by simp only [List.length_cons]; omega) (fun hlen => ?_)
            simp only [List.length_cons] at hlen
            omega
  rw [if_neg h3]
  refine iff_of_true (show einval < 0 by decide) ?_
  cases rest with
  | nil =>
      show f ∉ ["reg", "q", "intring"]
      simp only [List.mem_cons, List.not_mem_nil, or_false]
      tauto
  | cons c rest =>
      cases rest with
      | nil => exact ⟨fun h => absurd h h2, fun h => absurd h h3⟩
      | cons _ _ => exact fun h => absurd h h2

/-- **A line of a device that is accepted**: the registers, a queue, or an interrupt ring; and any
other word behind `intring`, which is skipped. -/
inductive FamilyLine (p w : String) (x : XcmdInfo) (r : XcmdInfo × ℕ) :
    String → List String → Prop where
  | reg {c : String} {rest : List String} (hline : RegLine (c :: rest) r.1.op r.1.reg) :
      FamilyLine p w x r "reg" (c :: rest)
  | queue {c : String} {rest : List String} (h : (do
      let r ← parseQCmd (p :: w :: "q" :: c :: rest) 3 x
      parseDone (p :: w :: "q" :: c :: rest) r) = .ok r) : FamilyLine p w x r "q" (c :: rest)
  | intr {rest : List String} (hop : r.1.op = .intrRingDump) (h : (do
      let r ← parseIntrCmd (p :: w :: "intring" :: "dump" :: rest) 3 x
      parseDone (p :: w :: "intring" :: "dump" :: rest) r) = .ok r) :
      FamilyLine p w x r "intring" ("dump" :: rest)
  | skipped {c : String} {rest : List String} (hc : c ≠ "dump") (hop : r.1.op = .devList) :
      FamilyLine p w x r "intring" (c :: rest)

theorem parseFamily_ok {x : XcmdInfo} {r : XcmdInfo × ℕ} (hdev : w ≠ "dev")
    (hname : parseIfname w = some (x.vf, x.ifIdx)) (hop : x.op = .devList)
    (h : parseFamily (p :: w :: f :: rest) f x = .ok r) : FamilyLine p w x r f rest := by
  unfold parseFamily at h
  cases rest with
  | nil =>
      -- the word behind the family is read
      split_ifs at h
      · exact absurd h (by simp [parseRegCmd, readRegWords, argAt, Bind.bind, Except.bind])
      · exact absurd h (by simp [parseQCmd, argAt, Bind.bind, Except.bind])
      · exact absurd h (by simp [parseIntrCmd, argAt, Bind.bind, Except.bind])
  | cons c rest =>
  by_cases h1 : f = "reg"
  · rw [if_pos h1] at h
    subst h1
    have hsafe : SafeParse (p :: w :: "reg" :: c :: rest) _ := parseReg_safe hdev hname hop
    rw [h] at hsafe
    have hfill : if w = "dev" then _ else _ := hsafe.2
    rw [if_neg hdev] at hfill
    rcases hfill.2 with ⟨-, hline⟩ | ⟨hf, -⟩ | ⟨hf, -⟩
    · exact .reg hline
    · exact absurd hf (by decide)
    · exact absurd hf (by decide)
  rw [if_neg h1] at h
  by_cases h2 : f = "q"
  · rw [if_pos h2] at h
    subst h2
    exact .queue h
  rw [if_neg h2] at h
  by_cases h3 : f = "intring"
  · rw [if_pos h3] at h
    subst h3
    by_cases hc : c = "dump"
    · subst hc
      have hsafe : SafeParse (p :: w :: "intring" :: "dump" :: rest) _ := parseIntr_safe hdev hname
      rw [h] at hsafe
      have hfill : if w = "dev" then _ else _ := hsafe.2
      rw [if_neg hdev] at hfill
      rcases hfill.2 with ⟨hf, -⟩ | ⟨hf, -⟩ | ⟨-, hintr, -⟩
      · exact absurd hf (by decide)
      · exact absurd hf (by decide)
      · exact .intr hintr h
    · rw [parseIntr_other hc, ok_bind] at h
      exact .skipped hc (by rw [parseDone_ok h, hop])
  · rw [if_neg h3] at h
    exact nomatch h

/-- What follows `q` on a line that is accepted is a queue command. -/
theorem queueLine_ok {x : XcmdInfo} {r : XcmdInfo × ℕ} (hdev : w ≠ "dev")
    (hname : parseIfname w = some (x.vf, x.ifIdx)) (hq : x.qparm = {}) (h : (do
      let r ← parseQCmd (p :: w :: "q" :: c :: rest) 3 x
      parseDone (p :: w :: "q" :: c :: rest) r) = .ok r) :
    QLine (c :: rest) r.1.op r.1.qparm := by
  by_cases hc : c ∈ qWords
  · have hsafe : SafeParse (p :: w :: "q" :: c :: rest) _ := parseQ_safe hdev hname hq hc
    rw [h] at hsafe
    have hfill : if w = "dev" then _ else _ := hsafe.2
    rw [if_neg hdev] at hfill
    rcases hfill.2 with ⟨hf, -⟩ | ⟨-, hline⟩ | ⟨hf, -⟩
    · exact absurd hf (by decide)
    · exact hline
    · exact absurd hf (by decide)
  · -- `rv` is not set behind any other word
    have hlist : c ≠ "list" := fun heq => hc (heq ▸ by decide)
    unfold parseQCmd at h
    rw [show argAt (p :: w :: "q" :: c :: rest) 3 = .ok c from rfl, ok_bind, if_neg hlist, hq,
      readQWords_unknown hc] at h
    exact nomatch h

/-- **A line that is accepted.** -/
inductive AcceptedLine (r : XcmdInfo × ℕ) : List String → Prop where
  | devices {p : String} {rest : List String} (hop : r.1.op = .devList) :
      AcceptedLine r (p :: "dev" :: rest)
  | info {p w : String} (hdev : w ≠ "dev") (hop : r.1.op = .devInfo) : AcceptedLine r [p, w]
  | device {p w f : String} {rest : List String} {vf : Bool} {ifIdx : ℕ} (hdev : w ≠ "dev")
      (hname : parseIfname w = some (vf, ifIdx))
      (h : parseFamily (p :: w :: f :: rest) f { vf := vf, ifIdx := ifIdx } = .ok r) :
      AcceptedLine r (p :: w :: f :: rest)

theorem parseCmd_ok {argv : List String} {xcmd : XcmdInfo} {r : XcmdInfo × ℕ}
    (h : parseCmd argv xcmd = .ok r) : AcceptedLine r argv := by
  cases argv with
  | nil => exact absurd h (by simp [parseCmd, argAt, Bind.bind, Except.bind])
  | cons p argv =>
  cases argv with
  | nil => exact absurd h (by simp [parseCmd])
  | cons w argv =>
  by_cases hdev : w = "dev"
  · subst hdev
    refine .devices ?_
    cases argv with
    | nil =>
        rw [parseCmd_dev] at h
        exact absurd h (by simp [parseDevCmd, argAt, Bind.bind, Except.bind])
    | cons f rest =>
        have hsafe : SafeParse (p :: "dev" :: f :: rest) _ := parseCmd_dev_safe xcmd
        rw [h] at hsafe
        have hfill : r.1.op = .devList ∧ f :: rest = ["list"] := hsafe.2
        exact hfill.1
  cases argv with
  | nil =>
      have hsafe := (parseCmd_short (p := p) xcmd).2.mpr hdev
      rw [h] at hsafe
      have hfill : if w = "dev" then _ else _ := hsafe.2
      rw [if_neg hdev] at hfill
      exact .info hdev hfill.2
  | cons f rest =>
      rw [parseCmd_family hdev] at h
      cases hname : parseIfname w with
      | none =>
          rw [hname] at h
          exact nomatch h
      | some d =>
          rw [hname] at h
          exact .device hdev hname h

/-- **The command parser is total and safe exactly on these lines.** -/
theorem parse_cmd_safe_iff {argv : List String} (h : argv ≠ []) (xcmd : XcmdInfo) :
    SafeParse argv (parseCmd argv xcmd) ↔ CmdOk argv := by
  cases argv with
  | nil => exact absurd rfl h
  | cons p argv =>
  cases argv with
  | nil => exact iff_of_true (parseCmd_short (w := p) xcmd).1 trivial
  | cons w argv =>
  cases argv with
  | nil => exact (parseCmd_short xcmd).2
  | cons f rest =>
  have hok : CmdOk (p :: w :: f :: rest) ↔ w = "dev" ∨ parseIfname w = none ∨ FamilyOk f rest := by
    cases rest with
    | nil => exact Iff.rfl
    | cons c rest =>
        cases rest with
        | nil => exact Iff.rfl
        | cons _ _ => exact Iff.rfl
  rw [hok]
  by_cases hdev : w = "dev"
  · subst hdev
    exact iff_of_true (parseCmd_dev_safe xcmd) (.inl rfl)
  rw [parseCmd_family hdev, or_iff_right hdev]
  cases hname : parseIfname w with
  | none => exact iff_of_true (show einval < 0 by decide) (.inl rfl)
  | some d =>
      rw [or_iff_right (by simp)]
      exact parseFamily_safe_iff hdev hname rfl rfl

end Line

/-- A line with options of a queue. -/
theorem parse_cmd_safe_queue :
    SafeParse ["dmactl", "qdma0", "q", "add", "mode", "st", "idx", "3"]
      (parseCmd ["dmactl", "qdma0", "q", "add", "mode", "st", "idx", "3"] {}) :=
  (parse_cmd_safe_iff (by decide) {}).mpr (.inr (.inr fun _ => by decide))

/-- The lines that end too early, and those with a word that no branch takes. -/
theorem parse_cmd_unsafe :
    parseCmd ["dmactl", "dev"] {} = .error .pastEnd ∧
      parseCmd ["dmactl", "qdma0", "q"] {} = .error .pastEnd ∧
      parseCmd ["dmactl", "qdma0", "q", "show"] {} = .error .uninit ∧
      parseCmd ["dmactl", "qdma0", "intring", "show"] {} = .ok ({}, 4) ∧
      ¬ SafeParse ["dmactl", "qdma0", "intring", "show"]
        (parseCmd ["dmactl", "qdma0", "intring", "show"] {}) := by
  refine ⟨rfl, ?_, ?_, ?_, ?_⟩
  · rw [parseCmd_family (by decide), show parseIfname "qdma0" = some (false, 0) by decide]
    rfl
  · rw [parseCmd_family (by decide), show parseIfname "qdma0" = some (false, 0) by decide]
    rfl
  · rw [parseCmd_family (by decide), show parseIfname "qdma0" = some (false, 0) by decide]
    rfl
  · rw [parseCmd_family (by decide), show parseIfname "qdma0" = some (false, 0) by decide]
    intro h
    have hok := (parseFamily_safe_iff (by decide) (show parseIfname "qdma0" = some (false, 0)
      by decide) rfl rfl).mp h
    exact absurd (hok.2 rfl) (by decide)

end Qdma
