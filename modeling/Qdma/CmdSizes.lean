/-
# The buffer of a command

`xnl_send_cmd` allocates one buffer for its request and for the reply, as long as
`get_cmd_resp_buf_len` says: for a dump a row for every entry of the range that is asked for.

`cmd_bufs_iff`: for a line that is accepted this comes out right just when the range on the line is
in order and its rows leave the length an `int`; `read_range` compares pointers, and nobody looks at
the range of an interrupt ring.
-/
import Qdma.StartCmd

namespace Qdma

open ByteMem

/-! ## The law -/

/-- The range that a command carries, in the member of the union that belongs to it. -/
def XcmdInfo.range (x : XcmdInfo) : ℤ × ℤ :=
  match x.op with
  | .devList | .devInfo => (0, 0)
  | .regDump | .regRd | .regWrt => (x.reg.rangeStart, x.reg.rangeEnd)
  | .intrRingDump => (toInt x.intr.startIdx, toInt x.intr.endIdx)
  | _ => (x.qparm.rangeStart, x.qparm.rangeEnd)

/-- `row_len`: the width of a row, for the commands that dump a range. -/
def rowLen : XnlOp → ℕ
  | .qDesc => 100
  | .qWrb | .intrRingDump => 50
  | _ => 0

/-- What `get_cmd_resp_buf_len` is to compute, in numbers of any size. -/
def respBufLen (x : XcmdInfo) : ℤ :=
  match x.op with
  | .qDesc | .qWrb | .intrRingDump =>
      xnlRespBuflenMax + (x.range.2 - x.range.1) * rowLen x.op
  | .devList | .qList | .qDump | .qAdd => xnlRespBuflenMax
  | _ => xnlRespBuflenMin

/-- **The buffers of a command are sized correctly.** -/
structure BufsSized (x : XcmdInfo) : Prop where
  ordered : x.range.1 ≤ x.range.2
  exact : toInt (getCmdRespBufLen x) = respBufLen x
  min : (xnlRespBuflenMin : ℤ) ≤ toInt (getCmdRespBufLen x)
  request : ∀ pid family, (xnlSendCmd pid family x).oob = false
  rows : (x.range.2 - x.range.1 + 1) * rowLen x.op ≤ toInt (getCmdRespBufLen x)

/-- The words of a range. -/
def QOpt.rangeWords : QOpt → Option (String × String)
  | .desc a b | .wrb a b => some (a, b)
  | _ => none

/-- The width of its rows. -/
def QOpt.row : QOpt → Option ℕ
  | .desc _ _ => some 100
  | .wrb _ _ => some 50
  | _ => none

/-- The last range among the options. -/
def lastRange (opts : List QOpt) : ℕ × ℕ :=
  match lastOf QOpt.rangeWords opts with
  | some (a, b) => (wordVal a, wordVal b)
  | none => (0, 0)

/-- The range of an interrupt ring.  What is missing, or is no number, is the end of the ring. -/
def intrRangeOf : List String → ℕ × ℕ
  | [] => (0, qdmaMaxIntRingEntries - 1)
  | a :: more =>
      if Readable a then
        (wordVal a, match more with
          | [] => qdmaMaxIntRingEntries - 1
          | b :: _ => if Readable b then wordVal b else qdmaMaxIntRingEntries - 1)
      else (0, qdmaMaxIntRingEntries - 1)

/-- It stands behind `vector` and its number; without `vector`, a word is skipped. -/
def intrRange (words : List String) : ℕ × ℕ :=
  intrRangeOf (words.drop (if words.head? = some "vector" then 2 else 1))

/-- A range is in order, and its rows leave the length an `int`. -/
def RangeFits (row : ℕ) (s e : ℤ) : Prop :=
  s ≤ e ∧ xnlRespBuflenMax + (e - s) * row < 2 ^ 31

/-- **The ranges on a line fit.** -/
def LineFits : List String → Prop
  | _ :: w :: f :: c :: words => w ≠ "dev" →
      (f = "reg" → c = "dump" → ∀ a b, words = ["dmap", a, b] → wordVal a ≤ wordVal b) ∧
        (f = "q" → ∀ opts : List QOpt, words = opts.flatMap QOpt.words →
          RangeFits (if c = "dump" then (lastOf QOpt.row opts).getD 0 else 0)
            (lastRange opts).1 (lastRange opts).2) ∧
        (f = "intring" → c = "dump" →
          RangeFits 50 (toInt (intrRange words).1) (toInt (intrRange words).2))
  | _ => True

/-! ## The length -/

/-- The length is right as long as it is an `int`. -/
theorem toInt_respLen (d : ℕ) {row : ℕ} :
    toInt (u32 (xnlRespBuflenMax + d * row)) = xnlRespBuflenMax + (d : ℤ) * row ↔
      (xnlRespBuflenMax : ℤ) + d * row < 2 ^ 31 := by
  constructor
  · intro h
    rw [← h]
    exact toInt_lt (Nat.mod_lt _ (by decide))
  · intro h
    have hlt : xnlRespBuflenMax + d * row < 2 ^ 31 := by exact_mod_cast h
    rw [u32_of_lt (hlt.trans (by decide)), toInt_of_lt hlt]
    push_cast
    rfl

/-- The difference of two numbers in order, as C takes it from their bits. -/
theorem u32Sub_of_toInt {s e : ℕ} (hs : s < 2 ^ 32) (he : e < 2 ^ 32) (h : toInt s ≤ toInt e) :
    (u32Sub e s : ℤ) = toInt e - toInt s := by
  unfold u32Sub
  unfold toInt at h ⊢
  split_ifs at h ⊢ <;> omega

theorem u32Sub_of_range {s e : ℕ} (he : e < 2 ^ 32) (h : (s : ℤ) ≤ e) :
    (u32Sub e s : ℤ) = e - s := by
  have hle : s ≤ e := by exact_mod_cast h
  rw [u32Sub_of_le he hle, Int.natCast_sub hle]

/-! ## The request -/

theorem xnlMsg_ints {dlen : ℕ} (hd : dlen < 2 ^ 31) (pid family op : ℕ) {attrs : List Attr}
    (hint : ∀ a ∈ attrs, ∃ type v, a = .int type v) (hfit : 8 * attrs.length ≤ dlen) :
    (xnlMsg dlen pid family op attrs).size = xnlHdrLen + dlen ∧
      (xnlMsg dlen pid family op attrs).nlmsgLen = xnlHdrLen + 8 * attrs.length ∧
      (xnlMsg dlen pid family op attrs).oob = false := by
  induction attrs using List.reverseRecOn with
  | nil => exact ⟨rfl, rfl, rfl⟩
  | append_singleton attrs a ih =>
      rw [List.length_append, List.length_singleton] at hfit ⊢
      obtain ⟨hsize, hlen, hoob⟩ := ih (fun b hb => hint b (List.mem_append_left _ hb)) (by omega)
      obtain ⟨type, v, rfl⟩ := hint a (List.mem_append_right _ (List.mem_singleton_self a))
      have hm : xnlMsg dlen pid family op (attrs ++ [.int type v])
          = xnlMsgAddIntAttr (xnlMsg dlen pid family op attrs) type v := by
        unfold xnlMsg
        rw [List.foldl_append, List.foldl_cons, List.foldl_nil]
        rfl
      rw [hm]
      generalize xnlMsg dlen pid family op attrs = m at hsize hlen hoob
      have hend : m.nlmsgLen + 8 ≤ m.size := by
        rw [hsize, hlen]
        omega
      refine ⟨hsize, ?_, ?_⟩
      · show u32 (m.nlmsgLen + 8) = _
        rw [u32_of_lt (by rw [hlen]; unfold xnlHdrLen; omega), hlen]
        omega
      · refine (store_oob ?_).trans ((store_oob ?_).trans ((store_oob ?_).trans hoob))
        · rw [length_bytesLe]
          exact hend
        · rw [length_bytesLe]
          show m.nlmsgLen + 2 ≤ m.size
          omega
        · rw [length_bytesLe]
          show m.nlmsgLen + 2 + 2 ≤ m.size
          omega

theorem length_attrIfSet (q : XcmdQParm) (t : QParmType) (type v : ℕ) :
    (attrIfSet q t type v).length ≤ 1 := by
  unfold attrIfSet
  split_ifs
  · exact le_refl 1
  · exact Nat.zero_le 1

/-- A command has at most ten attributes, -/
theorem length_cmdAttrs (x : XcmdInfo) : (cmdAttrs x).length ≤ 10 := by
  have hset := length_attrIfSet x.qparm
  have h1 := hset .rngszIdx xnlAttrQrngszIdx x.qparm.qrngszIdx
  have h2 := hset .c2hBufszIdx xnlAttrC2hBufszIdx x.qparm.c2hBufszIdx
  have h3 := hset .wrbsz xnlAttrWrbDescSize x.qparm.wrbEntrySize
  have h4 := hset .wrbTmrIdx xnlAttrWrbTimerIdx x.qparm.wrbTmrIdx
  have h5 := hset .wrbCntrIdx xnlAttrWrbCntrIdx x.qparm.wrbCntrIdx
  have h6 := hset .wrbTrigMode xnlAttrWrbTrigMode x.qparm.wrbTrigMode
  unfold cmdAttrs
  cases x.op
  all_goals
    simp only [xnlMsgAddExtraConfigAttrs, queueAttrs, List.length_cons, List.length_append,
      List.length_nil]
    omega

/-- each of them a number. -/
theorem cmdAttrs_int (x : XcmdInfo) : ∀ a ∈ cmdAttrs x, ∃ type v, a = .int type v := by
  have hset : ∀ t type v, ∀ a ∈ attrIfSet x.qparm t type v, ∃ type v, a = .int type v :=
    fun t type v a ha => ⟨_, _, mem_attrIfSet ha⟩
  have hqueue : ∀ a ∈ queueAttrs x.qparm, ∃ type v, a = .int type v := by
    simp [queueAttrs]
  have hextra : ∀ a ∈ xnlMsgAddExtraConfigAttrs x.qparm, ∃ type v, a = .int type v := by
    simp only [xnlMsgAddExtraConfigAttrs, List.forall_mem_append]
    exact ⟨hset _ _ _, hset _ _ _, hset _ _ _, hset _ _ _, hset _ _ _, hset _ _ _⟩
  unfold cmdAttrs
  rw [List.forall_mem_cons]
  refine ⟨⟨_, _, rfl⟩, ?_⟩
  cases x.op with
  | qAdd => exact hqueue
  | qStop => exact hqueue
  | qDel => exact hqueue
  | qDump => exact hqueue
  | qStart => exact List.forall_mem_append.mpr ⟨hextra, hqueue⟩
  | qDesc => exact List.forall_mem_append.mpr ⟨hqueue, by simp⟩
  | qWrb => exact List.forall_mem_append.mpr ⟨hqueue, by simp⟩
  | _ => simp

/-- **The request fits** a buffer that is as long as the shortest one. -/
theorem xnlSendCmd_fits {x : XcmdInfo} (hmin : xnlRespBuflenMin ≤ getCmdRespBufLen x)
    (hmax : getCmdRespBufLen x < 2 ^ 31) (pid family : ℕ) :
    (xnlSendCmd pid family x).oob = false := by
  have hlen := length_cmdAttrs x
  unfold xnlRespBuflenMin at hmin
  exact (xnlMsg_ints hmax pid family _ (cmdAttrs_int x) (by omega)).2.2

/-! ## The condition, on what has been parsed -/

/-- The range of a dump is 32 bits wide. -/
structure RangeBits (x : XcmdInfo) : Prop where
  queue : x.op = .qDesc ∨ x.op = .qWrb → x.qparm.rangeEnd < 2 ^ 32
  intr : x.op = .intrRingDump → x.intr.startIdx < 2 ^ 32 ∧ x.intr.endIdx < 2 ^ 32

/-- A range with rows. -/
theorem bufsSized_rows {x : XcmdInfo} {d : ℕ} (hrow : rowLen x.op ≤ 100)
    (hd : x.range.1 ≤ x.range.2 → (d : ℤ) = x.range.2 - x.range.1)
    (hlen : getCmdRespBufLen x = u32 (xnlRespBuflenMax + d * rowLen x.op))
    (hexact : respBufLen x = xnlRespBuflenMax + (x.range.2 - x.range.1) * rowLen x.op) :
    BufsSized x ↔ RangeFits (rowLen x.op) x.range.1 x.range.2 := by
  have hlaw : x.range.1 ≤ x.range.2 → (toInt (getCmdRespBufLen x) = respBufLen x ↔
      (xnlRespBuflenMax : ℤ) + (x.range.2 - x.range.1) * rowLen x.op < 2 ^ 31) := by
    intro hle
    rw [hlen, hexact, ← hd hle]
    exact toInt_respLen d
  constructor
  · exact fun h => ⟨h.ordered, (hlaw h.ordered).mp h.exact⟩
  · rintro ⟨hle, hlt⟩
    have heq := (hlaw hle).mpr hlt
    have hnonneg : 0 ≤ (x.range.2 - x.range.1) * (rowLen x.op : ℤ) :=
      Int.mul_nonneg (Int.sub_nonneg_of_le hle) (Int.natCast_nonneg _)
    have hbound : (xnlRespBuflenMax : ℤ) ≤ toInt (getCmdRespBufLen x) := by
      rw [heq, hexact]
      exact le_add_of_nonneg_right hnonneg
    have hmin : (xnlRespBuflenMin : ℤ) ≤ toInt (getCmdRespBufLen x) :=
      le_trans (by decide) hbound
    have hbits : getCmdRespBufLen x < 2 ^ 32 := by
      rw [hlen]
      exact Nat.mod_lt _ (by decide)
    have hlow : getCmdRespBufLen x < 2 ^ 31 := by
      by_contra hge
      unfold toInt at hmin
      rw [if_neg hge] at hmin
      unfold xnlRespBuflenMin at hmin
      omega
    refine ⟨hle, heq, hmin, xnlSendCmd_fits ?_ hlow, ?_⟩
    · rw [toInt_of_lt hlow] at hmin
      exact_mod_cast hmin
    · -- the row more is in what a buffer has anyway
      rw [heq, hexact, add_mul, one_mul, add_comm]
      have hone : (rowLen x.op : ℤ) ≤ xnlRespBuflenMax := by
        unfold xnlRespBuflenMax
        omega
      exact Int.add_le_add_right hone _

/-- No rows: only the order matters. -/
theorem bufsSized_plain {x : XcmdInfo} (hrow : rowLen x.op = 0)
    (hlen : getCmdRespBufLen x = xnlRespBuflenMax ∨ getCmdRespBufLen x = xnlRespBuflenMin)
    (hexact : respBufLen x = getCmdRespBufLen x) :
    BufsSized x ↔ RangeFits (rowLen x.op) x.range.1 x.range.2 := by
  have hlow : xnlRespBuflenMin ≤ getCmdRespBufLen x ∧ getCmdRespBufLen x < 2 ^ 31 := by
    rcases hlen with h | h
    · rw [h]
      decide
    · rw [h]
      decide
  have hint := toInt_of_lt hlow.2
  unfold RangeFits
  rw [hrow, Nat.cast_zero, mul_zero]
  constructor
  · exact fun h => ⟨h.ordered, by decide⟩
  · rintro ⟨hle, -⟩
    refine ⟨hle, by rw [hint, hexact], ?_, xnlSendCmd_fits hlow.1 hlow.2, ?_⟩
    · rw [hint]
      exact_mod_cast hlow.1
    · rw [hint, hrow, Nat.cast_zero, mul_zero]
      exact Int.natCast_nonneg _

/-- A dump of a queue. -/
theorem bufsSized_queue {x : XcmdInfo} (hop : x.op = .qDesc ∨ x.op = .qWrb)
    (hend : x.qparm.rangeEnd < 2 ^ 32) :
    BufsSized x ↔ RangeFits (rowLen x.op) x.range.1 x.range.2 := by
  have hrange : x.range = (↑x.qparm.rangeStart, ↑x.qparm.rangeEnd) := by
    unfold XcmdInfo.range
    rcases hop with h | h <;> rw [h]
  have hlen : getCmdRespBufLen x =
      u32 (xnlRespBuflenMax + u32Sub x.qparm.rangeEnd x.qparm.rangeStart * rowLen x.op) := by
    unfold getCmdRespBufLen
    rcases hop with h | h <;> rw [h] <;> rfl
  refine bufsSized_rows ?_ ?_ hlen ?_
  · rcases hop with h | h <;> rw [h] <;> decide
  · rw [hrange]
    exact u32Sub_of_range hend
  · unfold respBufLen
    rcases hop with h | h <;> rw [h]

/-- A dump of an interrupt ring. -/
theorem bufsSized_intr {x : XcmdInfo} (hop : x.op = .intrRingDump)
    (hstart : x.intr.startIdx < 2 ^ 32) (hend : x.intr.endIdx < 2 ^ 32) :
    BufsSized x ↔ RangeFits (rowLen x.op) x.range.1 x.range.2 := by
  have hrange : x.range = (toInt x.intr.startIdx, toInt x.intr.endIdx) := by
    unfold XcmdInfo.range
    rw [hop]
  have hlen : getCmdRespBufLen x =
      u32 (xnlRespBuflenMax + u32Sub x.intr.endIdx x.intr.startIdx * rowLen x.op) := by
    unfold getCmdRespBufLen
    rw [hop]
    rfl
  refine bufsSized_rows (by rw [hop]; decide) ?_ hlen (by unfold respBufLen; rw [hop])
  rw [hrange]
  exact u32Sub_of_toInt hstart hend

/-- **The buffers are sized correctly** just when the range is in order and fits. -/
theorem bufsSized_iff {x : XcmdInfo} (hbits : RangeBits x) :
    BufsSized x ↔ RangeFits (rowLen x.op) x.range.1 x.range.2 := by
  cases hop : x.op with
  | qDesc => exact hop ▸ bufsSized_queue (.inl hop) (hbits.queue (.inl hop))
  | qWrb => exact hop ▸ bufsSized_queue (.inr hop) (hbits.queue (.inr hop))
  | intrRingDump => exact hop ▸ bufsSized_intr hop (hbits.intr hop).1 (hbits.intr hop).2
  | _ =>
      rw [← hop]
      refine bufsSized_plain (by rw [hop]; rfl) ?_ ?_
      · unfold getCmdRespBufLen
        rw [hop]
        first
          | exact .inl rfl
          | exact .inr rfl
      · unfold respBufLen getCmdRespBufLen
        rw [hop]

/-! ## The range of an interrupt ring -/

section Line

variable {argv : List String} {i : ℕ}

/-- `next_arg_read_int` reads the word behind the cursor, if there is one. -/
theorem nextArgReadInt_drop (h : i < argv.length) :
    nextArgReadInt argv i = match argv.drop (i + 1) with
      | [] => .ok (einval, i, none)
      | s :: _ => .ok ((argReadInt s.toList).1, i + 1, some (wordVal s)) := by
  unfold nextArgReadInt
  rcases getNextArg_cases h with ⟨hlt, hget⟩ | ⟨hlen, hget⟩
  · obtain ⟨s, hs, -, hdrop⟩ := argAt_of_lt hlt
    rw [hget, hdrop]
    simp only
    rw [hs, ok_bind]
    rfl
  · rw [hget, List.drop_eq_nil_of_le hlen.le]

/-- An error is one of a word that is no number. -/
theorem argReadInt_neg (s : String) : (argReadInt s.toList).1 < 0 ↔ ¬ Readable s := by
  unfold Readable
  rcases argReadInt_rv s.toList with h | h
  · rw [h]
    decide
  · rw [h]
    decide

/-- What `parse_intr_cmd` does behind the vector. -/
def intrBehind (argv : List String) (j v : ℕ) (x : XcmdInfo) : Parse (XcmdInfo × ℕ) := do
  let (rv, i, v1) ← nextArgReadInt argv j
  if rv < 0 then
    .ok ({ x with intr := { vector := v, startIdx := 0, endIdx := qdmaMaxIntRingEntries - 1 } },
      i + 1)
  else
    let (rv, i, v2) ← nextArgReadInt argv i
    .ok ({ x with
        intr := {
          vector := v
          startIdx := v1.getD 0
          endIdx := if rv < 0 then qdmaMaxIntRingEntries - 1 else v2.getD 0 } }, i + 1)

theorem intrBehind_range {j v : ℕ} (hj : j < argv.length) {x : XcmdInfo} {r : XcmdInfo × ℕ}
    (hrun : intrBehind argv j v x = .ok r) :
    (r.1.intr.startIdx, r.1.intr.endIdx) = intrRangeOf (argv.drop (j + 1)) := by
  unfold intrBehind at hrun
  rw [nextArgReadInt_drop hj] at hrun
  cases hdrop : argv.drop (j + 1) with
  | nil =>
      rw [hdrop] at hrun
      rw [← Except.ok.inj hrun]
      rfl
  | cons a more =>
      have hlt : j + 1 < argv.length := by
        by_contra hge
        rw [List.drop_eq_nil_of_le (Nat.le_of_not_lt hge)] at hdrop
        exact List.cons_ne_nil _ _ hdrop.symm
      have hmore : argv.drop (j + 1 + 1) = more := by
        rw [← List.tail_drop, hdrop, List.tail_cons]
      rw [hdrop] at hrun
      simp only [ok_bind] at hrun
      unfold intrRangeOf
      simp only
      by_cases ha : Readable a
      · rw [if_neg (fun hneg => (argReadInt_neg a).mp hneg ha), nextArgReadInt_drop hlt,
          hmore] at hrun
        rw [if_pos ha]
        cases more with
        | nil =>
            rw [← Except.ok.inj hrun]
            rfl
        | cons b more =>
            rw [← Except.ok.inj hrun]
            simp only
            by_cases hb : Readable b
            · rw [if_neg (fun hneg => (argReadInt_neg b).mp hneg hb), if_pos hb]
              rfl
            · rw [if_pos ((argReadInt_neg b).mpr hb), if_neg hb]
              rfl
      · rw [if_pos ((argReadInt_neg a).mpr ha)] at hrun
        rw [if_neg ha, ← Except.ok.inj hrun]

/-- **The words behind the vector** are the range. -/
theorem parseIntrCmd_range (h : i < argv.length) (hw : argAt argv i = .ok "dump") {x : XcmdInfo}
    {r : XcmdInfo × ℕ} (hr : parseIntrCmd argv i x = .ok r) :
    (r.1.intr.startIdx, r.1.intr.endIdx) = intrRange (argv.drop (i + 1)) := by
  unfold parseIntrCmd readVector at hr
  rw [hw, ok_bind, if_pos rfl] at hr
  rcases getNextArg_cases h with ⟨hlt, hget⟩ | ⟨-, hget⟩
  swap
  · rw [hget] at hr
    cases hr
  obtain ⟨w, hat, -, hdrop⟩ := argAt_of_lt hlt
  rw [hget, ok_bind, hat, ok_bind] at hr
  unfold intrRange
  rw [hdrop]
  by_cases hv : w = "vector"
  · rw [if_pos hv] at hr
    rcases nextInt_cases hlt with ⟨s, hlt', -, hdrop', -, hint⟩ | hint
    swap
    · rw [hint] at hr
      cases hr
    rw [hint, ok_bind] at hr
    rw [hv, hdrop']
    exact intrBehind_range (x := { x with op := .intrRingDump }) hlt' hr
  · rw [if_neg hv, ok_bind] at hr
    have hskip : ¬ (w :: argv.drop (i + 1 + 1)).head? = some "vector" :=
      fun heq => hv (Option.some.inj heq)
    rw [if_neg hskip]
    exact intrBehind_range (x := { x with op := .intrRingDump }) hlt hr

end Line

/-! ## The range of a queue -/

section Queue

variable {opts : List QOpt}

theorem finishQparm_range (q : XcmdQParm) (s : BitVec 32) :
    ((finishQparm q s).rangeStart, (finishQparm q s).rangeEnd) = (q.rangeStart, q.rangeEnd) := by
  unfold finishQparm
  split_ifs <;> rfl

theorem startDefaults_range (q : XcmdQParm) :
    ((startDefaults q).rangeStart, (startDefaults q).rangeEnd) = (q.rangeStart, q.rangeEnd) := by
  rw [startDefaults_eq]
  split_ifs <;> rfl

theorem addMode_range {q q' : XcmdQParm} (h : addMode q = .ok q') :
    (q'.rangeStart, q'.rangeEnd) = (q.rangeStart, q.rangeEnd) := by
  unfold addMode at h
  split_ifs at h
  · rw [← Except.ok.inj h]
  · rw [← Except.ok.inj h]
    rfl

/-- The options leave the last range. -/
theorem enterAll_range (opts : List QOpt) :
    ((enterAll opts {}).1.rangeStart, (enterAll opts {}).1.rangeEnd) = lastRange opts := by
  have hkeep : ∀ q o, QOpt.rangeWords o = none →
      ((QOpt.enter q o).rangeStart, (QOpt.enter q o).rangeEnd) = (q.rangeStart, q.rangeEnd) := by
    intro q o ho
    cases o with
    | desc a b => exact nomatch ho
    | wrb a b => exact nomatch ho
    | size t w => cases t <;> rfl
    | flag f => cases f <;> rfl
    | _ => rfl
  have hset : ∀ q o p, QOpt.rangeWords o = some p →
      ((QOpt.enter q o).rangeStart, (QOpt.enter q o).rangeEnd) = (wordVal p.1, wordVal p.2) := by
    intro q o p ho
    cases o with
    | desc a b =>
        obtain rfl := Option.some.inj ho
        rfl
    | wrb a b =>
        obtain rfl := Option.some.inj ho
        rfl
    | _ => exact nomatch ho
  have hstart : (enterAll opts {}).1.rangeStart = _ := lastOf_enter (g := fun q => q.rangeStart)
    (v := fun p : String × String => wordVal p.1)
    (fun q o p ho => (Prod.mk.inj (hset q o p ho)).1)
    (fun q o ho => (Prod.mk.inj (hkeep q o ho)).1) ({ idx := xnlQidxInvalid }, 0)
  have hend : (enterAll opts {}).1.rangeEnd = _ := lastOf_enter (g := fun q => q.rangeEnd)
    (v := fun p : String × String => wordVal p.2)
    (fun q o p ho => (Prod.mk.inj (hset q o p ho)).2)
    (fun q o ho => (Prod.mk.inj (hkeep q o ho)).2) ({ idx := xnlQidxInvalid }, 0)
  rw [hstart, hend]
  unfold lastRange
  cases lastOf QOpt.rangeWords opts <;> rfl

/-- What a command makes of the options has their range. -/
theorem qFinish_range {op : XnlOp} {q : XcmdQParm} (h : qFinish op opts = .ok q) :
    (q.rangeStart, q.rangeEnd) = lastRange opts := by
  refine Eq.trans ?_ ((finishQparm_range _ (enterAll opts {}).2).trans (enterAll_range opts))
  unfold qFinish at h
  cases op with
  | qAdd => exact addMode_range h
  | qStart =>
      rw [← Except.ok.inj h]
      exact startDefaults_range _
  | _ => rw [← Except.ok.inj h]

/-- A bit that is set. -/
theorem and_bit {f : BitVec 32} {t : QParmType} (h : f &&& t.bit ≠ 0) : f &&& t.bit = t.bit := by
  have hbit : t.bit = BitVec.twoPow 32 t.ctorIdx := by cases t <;> rfl
  rw [hbit, BitVec.and_twoPow, if_pos ((bit_iff f t).mp h)]

/-- The ring that is asked for has the only ranges. -/
theorem dumpOp_ok {q : XcmdQParm} {op : XnlOp} (h : dumpOp q = .ok op) :
    (op = .qDesc ∧ q.sflags &&& QParmType.desc.bit ≠ 0 ∧ q.sflags &&& QParmType.wrb.bit = 0) ∨
      (op = .qWrb ∧ q.sflags &&& QParmType.desc.bit = 0 ∧ q.sflags &&& QParmType.wrb.bit ≠ 0) ∨
      (op = .qDump ∧ q.sflags &&& QParmType.desc.bit = 0 ∧
        q.sflags &&& QParmType.wrb.bit = 0) := by
  unfold dumpOp at h
  by_cases hd : q.sflags &&& QParmType.desc.bit = 0
  · by_cases hw : q.sflags &&& QParmType.wrb.bit = 0
    · rw [BitVec.and_or_distrib_left, hd, hw, if_neg (by decide), if_neg (not_not.mpr rfl),
        if_neg (not_not.mpr rfl)] at h
      exact .inr (.inr ⟨(Except.ok.inj h).symm, hd, hw⟩)
    · rw [BitVec.and_or_distrib_left, hd, and_bit hw, if_neg (by decide), if_neg (not_not.mpr rfl),
        if_pos (by decide)] at h
      exact .inr (.inl ⟨(Except.ok.inj h).symm, hd, hw⟩)
  · by_cases hw : q.sflags &&& QParmType.wrb.bit = 0
    · rw [BitVec.and_or_distrib_left, and_bit hd, hw, if_neg (by decide), if_pos (by decide)] at h
      exact .inl ⟨(Except.ok.inj h).symm, hd, hw⟩
    · rw [BitVec.and_or_distrib_left, and_bit hd, and_bit hw, if_pos rfl] at h
      exact nomatch h

/-- A ring is asked for by its option. -/
theorem finishQparm_row {t : QParmType} (ht : t = .desc ∨ t = .wrb) (opts : List QOpt) :
    (finishQparm (enterAll opts {}).1 (enterAll opts {}).2).sflags &&& t.bit ≠ 0 ↔
      ∃ o ∈ opts, o.row = some (if t = .desc then 100 else 50) := by
  have hdir : t ≠ .dir := by rcases ht with rfl | rfl <;> decide
  rw [(finishQparm_other _ _).2.2.2.2.2 t hdir, bit_iff, enterAll_sflag]
  refine exists_congr fun o => and_congr_right fun _ => ?_
  rcases ht with rfl | rfl
  · cases o with
    | size t w => cases t <;> simp [QOpt.bit, QOpt.row, SizeParm.type, bit_getLsbD]
    | _ => simp [QOpt.bit, QOpt.row, bit_getLsbD]
  · cases o with
    | size t w => cases t <;> simp [QOpt.bit, QOpt.row, SizeParm.type, bit_getLsbD]
    | _ => simp [QOpt.bit, QOpt.row, bit_getLsbD]

/-- All that there is of a kind is the last of it. -/
theorem lastOf_all {α : Type} {f : QOpt → Option α} {a : α} (hmem : ∃ o ∈ opts, f o = some a)
    (hall : ∀ o ∈ opts, f o = none ∨ f o = some a) : lastOf f opts = some a := by
  cases hlast : lastOf f opts with
  | none =>
      obtain ⟨o, ho, hf⟩ := hmem
      exact absurd (hf.symm.trans (lastOf_eq_none_iff.mp hlast o ho)) (Option.some_ne_none a)
  | some b =>
      obtain ⟨o, ho, hf⟩ := lastOf_mem hlast
      rcases hall o ho with hnone | hsome
      · exact absurd (hf.symm.trans hnone) (Option.some_ne_none b)
      · exact hf.symm.trans hsome

/-- **The rows of a dump** are those of its range. -/
theorem dumpOp_row {op : XnlOp}
    (h : dumpOp (finishQparm (enterAll opts {}).1 (enterAll opts {}).2) = .ok op) :
    (lastOf QOpt.row opts).getD 0 = rowLen op := by
  have hdesc := finishQparm_row (.inl rfl) opts
  have hwrb := finishQparm_row (.inr rfl) opts
  rw [if_pos rfl] at hdesc
  rw [if_neg (by decide)] at hwrb
  have hrow : ∀ o : QOpt, o.row = none ∨ o.row = some 100 ∨ o.row = some 50 := by
    intro o
    cases o with
    | desc a b => exact .inr (.inl rfl)
    | wrb a b => exact .inr (.inr rfl)
    | _ => exact .inl rfl
  rcases dumpOp_ok h with ⟨rfl, hd, hw⟩ | ⟨rfl, hd, hw⟩ | ⟨rfl, hd, hw⟩
  · have hno : ∀ o ∈ opts, o.row ≠ some 50 := fun o ho h => (hwrb.mpr ⟨o, ho, h⟩) hw
    rw [lastOf_all (hdesc.mp hd) (fun o ho => (hrow o).imp_right fun h =>
      h.resolve_right (hno o ho))]
    rfl
  · have hno : ∀ o ∈ opts, o.row ≠ some 100 := fun o ho h => (hdesc.mpr ⟨o, ho, h⟩) hd
    rw [lastOf_all (hwrb.mp hw) (fun o ho => (hrow o).imp_right fun h =>
      h.resolve_left (hno o ho))]
    rfl
  · have hno : ∀ o ∈ opts, o.row = none := by
      intro o ho
      rcases hrow o with hn | h100 | h50
      · exact hn
      · exact absurd hd (hdesc.mpr ⟨o, ho, h100⟩)
      · exact absurd hw (hwrb.mpr ⟨o, ho, h50⟩)
    rw [lastOf_eq_none_iff.mpr hno]
    rfl

end Queue

/-! ## The whole line -/

section Accepted

variable {p w c : String} {rest : List String} {x : XcmdInfo}

/-- Without a range there is nothing to go wrong. -/
theorem rangeFits_zero : RangeFits 0 0 0 := ⟨le_refl 0, by decide⟩

/-- A range without rows is only to be in order. -/
theorem rangeFits_plain (s e : ℕ) : RangeFits 0 s e ↔ s ≤ e := by
  unfold RangeFits
  rw [Nat.cast_zero, mul_zero, Nat.cast_le]
  exact and_iff_left (by decide)

/-- Nor with a command for devices. -/
theorem bufsSized_dev (hop : x.op = .devList ∨ x.op = .devInfo) : BufsSized x := by
  have hbits : RangeBits x := by
    constructor
    · intro h
      rcases hop with hop | hop <;> rw [hop] at h <;> exact absurd h (by decide)
    · intro h
      rcases hop with hop | hop <;> rw [hop] at h <;> exact absurd h (by decide)
  refine (bufsSized_iff hbits).mpr ?_
  unfold XcmdInfo.range
  rcases hop with hop | hop <;> rw [hop] <;> exact rangeFits_zero

/-- Only `dump dmap` has a range. -/
theorem RegLine.range {op : XnlOp} {r : XcmdReg} (h : RegLine (c :: rest) op r) :
    r.rangeStart ≤ r.rangeEnd ↔
      (c = "dump" → ∀ a b, rest = ["dmap", a, b] → wordVal a ≤ wordVal b) := by
  have hbar : ∀ bar a, (barReg bar a).rangeStart ≤ (barReg bar a).rangeEnd := by
    intro bar a
    cases bar <;> exact le_refl 0
  cases h with
  | dump => exact iff_of_true (le_refl 0) (fun _ a b h => nomatch h)
  | dmap a b =>
      refine ⟨fun hle _ a' b' h => ?_, fun h => h rfl a b rfl⟩
      simp only [List.cons.injEq, true_and, and_true] at h
      rw [← h.1, ← h.2]
      exact hle
  | read bar a => exact iff_of_true (hbar bar a) (fun h => absurd h (by decide))
  | write bar a v => exact iff_of_true (hbar bar a) (fun h => absurd h (by decide))

/-- The line of a register. -/
theorem reg_fits (hdev : w ≠ "dev") (hline : RegLine (c :: rest) x.op x.reg) :
    BufsSized x ↔ LineFits (p :: w :: "reg" :: c :: rest) := by
  have hop := hline.op
  have hbits : RangeBits x := by
    constructor
    · intro h
      rcases hop with hop | hop | hop <;> rw [hop] at h <;> exact absurd h (by decide)
    · intro h
      rcases hop with hop | hop | hop <;> rw [hop] at h <;> exact absurd h (by decide)
  have hsized : BufsSized x ↔ x.reg.rangeStart ≤ x.reg.rangeEnd := by
    rw [bufsSized_iff hbits, ← rangeFits_plain]
    unfold XcmdInfo.range
    rcases hop with hop | hop | hop <;> rw [hop] <;> exact Iff.rfl
  have hfits : LineFits (p :: w :: "reg" :: c :: rest) ↔
      (c = "dump" → ∀ a b, rest = ["dmap", a, b] → wordVal a ≤ wordVal b) := by
    unfold LineFits
    simp [hdev]
  rw [hsized, hfits]
  exact hline.range

/-- What a queue command asks for. -/
theorem QLine.range {op : XnlOp} {q : XcmdQParm} (hline : QLine (c :: rest) op q) :
    ∃ opts : List QOpt, rest = opts.flatMap QOpt.words ∧
      (q.rangeStart, q.rangeEnd) = lastRange opts ∧
      (if c = "dump" then (lastOf QOpt.row opts).getD 0 else 0) = rowLen op ∧
      op ∈ [.qList, .qAdd, .qStart, .qStop, .qDel, .qDump, .qDesc, .qWrb, .qRxPkt] := by
  generalize hwords : c :: rest = words at hline
  cases hline with
  | list =>
      obtain ⟨rfl, rfl⟩ := List.cons.inj hwords
      exact ⟨[], rfl, rfl, rfl, by decide⟩
  | @opts c' _ opts _ known ok finish ring =>
      obtain ⟨rfl, rfl⟩ := List.cons.inj hwords
      have hdump : ∀ op', c = "dump" → op = op' → op' ∈ [XnlOp.qDump, .qDesc, .qWrb] →
          (if c = "dump" then (lastOf QOpt.row opts).getD 0 else 0) = rowLen op := by
        rintro op' hc rfl hop
        have hq : q = finishQparm (enterAll opts {}).1 (enterAll opts {}).2 := by
          simp only [List.mem_cons, List.not_mem_nil, or_false] at hop
          rcases hop with rfl | rfl | rfl <;> exact (Except.ok.inj finish).symm
        rw [if_pos hc]
        exact dumpOp_row (hq ▸ ring hc)
      refine ⟨opts, rfl, qFinish_range finish, ?_, ?_⟩
      · simp only [qCommands, List.mem_cons, Prod.mk.injEq, List.not_mem_nil, or_false] at known
        rcases known with ⟨hc, rfl⟩ | ⟨hc, rfl⟩ | ⟨hc, rfl⟩ | ⟨hc, rfl⟩ | ⟨hc, rfl⟩ | ⟨hc, rfl⟩ |
          ⟨hc, rfl⟩ | ⟨hc, rfl⟩
        · rw [hc]
          rfl
        · rw [hc]
          rfl
        · rw [hc]
          rfl
        · rw [hc]
          rfl
        · exact hdump _ hc rfl (by decide)
        · exact hdump _ hc rfl (by decide)
        · exact hdump _ hc rfl (by decide)
        · rw [hc]
          rfl
      · have hall : ∀ a ∈ qCommands, a.2 ∈ [XnlOp.qList, .qAdd, .qStart, .qStop, .qDel, .qDump,
            .qDesc, .qWrb, .qRxPkt] := by decide
        exact hall _ known

/-- The line of a queue. -/
theorem q_fits (hdev : w ≠ "dev") (hline : QLine (c :: rest) x.op x.qparm) :
    BufsSized x ↔ LineFits (p :: w :: "q" :: c :: rest) := by
  obtain ⟨opts, rfl, hrange, hrow, hop⟩ := hline.range
  have hstart : x.qparm.rangeStart = (lastRange opts).1 := congrArg Prod.fst hrange
  have hend : x.qparm.rangeEnd = (lastRange opts).2 := congrArg Prod.snd hrange
  have hbits : RangeBits x := by
    constructor
    · intro _
      rw [hend]
      unfold lastRange
      cases lastOf QOpt.rangeWords opts with
      | none => decide
      | some a => exact wordVal_lt _
    · intro h
      rw [h] at hop
      exact absurd hop (by decide)
  have hsized : x.range = (↑x.qparm.rangeStart, ↑x.qparm.rangeEnd) := by
    unfold XcmdInfo.range
    cases h : x.op
    all_goals first
      | rfl
      | (rw [h] at hop; exact absurd hop (by decide))
  have hfits : LineFits (p :: w :: "q" :: c :: opts.flatMap QOpt.words) ↔
      RangeFits (if c = "dump" then (lastOf QOpt.row opts).getD 0 else 0)
        (lastRange opts).1 (lastRange opts).2 := by
    unfold LineFits
    constructor
    · exact fun h => (h hdev).2.1 rfl opts rfl
    · refine fun h _ => ⟨fun hq => absurd hq (by decide), fun _ opts' hwords => ?_,
        fun hq => absurd hq (by decide)⟩
      rw [← flatMap_words_inj hwords]
      exact h
  rw [bufsSized_iff hbits, hfits, hsized, hrow, hstart, hend]

theorem intrRangeOf_lt (words : List String) :
    (intrRangeOf words).1 < 2 ^ 32 ∧ (intrRangeOf words).2 < 2 ^ 32 := by
  cases words with
  | nil => decide
  | cons a more =>
      unfold intrRangeOf
      simp only
      by_cases ha : Readable a
      · rw [if_pos ha]
        refine ⟨wordVal_lt a, ?_⟩
        cases more with
        | nil => exact show qdmaMaxIntRingEntries - 1 < 2 ^ 32 by decide
        | cons b more =>
            simp only
            split_ifs
            · exact wordVal_lt b
            · decide
      · rw [if_neg ha]
        decide

/-- The line of an interrupt ring. -/
theorem intr_fits (hdev : w ≠ "dev") (hop : x.op = .intrRingDump)
    (hrange : (x.intr.startIdx, x.intr.endIdx) = intrRange rest) :
    BufsSized x ↔ LineFits (p :: w :: "intring" :: "dump" :: rest) := by
  have hstart : x.intr.startIdx = (intrRange rest).1 := congrArg Prod.fst hrange
  have hend : x.intr.endIdx = (intrRange rest).2 := congrArg Prod.snd hrange
  have hbits : RangeBits x := by
    constructor
    · intro h
      rw [hop] at h
      exact absurd h (by decide)
    · intro _
      rw [hstart, hend]
      exact intrRangeOf_lt _
  have hsized : x.range = (toInt (intrRange rest).1, toInt (intrRange rest).2) := by
    unfold XcmdInfo.range
    rw [hop, hstart, hend]
  rw [bufsSized_iff hbits, hsized, hop]
  unfold LineFits
  constructor
  · exact fun h _ => ⟨fun hq => absurd hq (by decide), fun hq => absurd hq (by decide),
      fun _ _ => h⟩
  · exact fun h => (h hdev).2.2 rfl rfl

/-- A part that is accepted has been read, and nothing is left over. -/
theorem parseDone_bind {argv : List String} {m : Parse (XcmdInfo × ℕ)} {r : XcmdInfo × ℕ}
    (h : (do
      let r ← m
      parseDone argv r) = .ok r) : m = .ok r := by
  cases m with
  | error e => exact nomatch h
  | ok a =>
      rw [ok_bind] at h
      rw [parseDone_ok h]

/-- **A line for a device.** -/
theorem family_fits {f : String} {r : XcmdInfo × ℕ} (hdev : w ≠ "dev")
    (hname : parseIfname w = some (x.vf, x.ifIdx)) (hop : x.op = .devList) (hq : x.qparm = {})
    (h : parseFamily (p :: w :: f :: rest) f x = .ok r) :
    BufsSized r.1 ↔ LineFits (p :: w :: f :: rest) := by
  cases parseFamily_ok hdev hname hop h with
  | reg hline => exact reg_fits hdev hline
  | queue hqueue => exact q_fits hdev (queueLine_ok hdev hname hq hqueue)
  | @intr rest hintr hdump =>
      refine intr_fits hdev hintr ?_
      have hlen : 3 < (p :: w :: "intring" :: "dump" :: rest).length := by
        simp only [List.length_cons]
        omega
      exact parseIntrCmd_range hlen rfl (parseDone_bind hdump)
  | skipped hc hlist =>
      refine iff_of_true (bufsSized_dev (.inl hlist)) fun _ => ?_
      exact ⟨fun hq => absurd hq (by decide), fun hq => absurd hq (by decide),
        fun _ hd => absurd hd hc⟩

end Accepted

/-- **When the buffers of a command are sized correctly**: for every line that is accepted, just
when its ranges fit. -/
theorem cmd_bufs_iff {argv : List String} {xcmd : XcmdInfo} {r : XcmdInfo × ℕ}
    (h : parseCmd argv xcmd = .ok r) : BufsSized r.1 ↔ LineFits argv := by
  cases parseCmd_ok h with
  | @devices p rest hop =>
      refine iff_of_true (bufsSized_dev (.inl hop)) ?_
      match rest with
      | [] => trivial
      | [_] => trivial
      | _ :: _ :: _ => exact fun hne => absurd rfl hne
  | info _ hop => exact iff_of_true (bufsSized_dev (.inr hop)) trivial
  | device hdev hname hfamily => exact family_fits hdev hname rfl rfl hfamily

/-- A dump of a queue. -/
def dumpInfo (op : XnlOp) (sflags : BitVec 32) (s e : ℕ) : XcmdInfo :=
  { op := op
    qparm := { sflags := sflags, flags := xnlFQdirH2c, numQ := 1, rangeStart := s, rangeEnd := e } }

/-- A dump of eight descriptors. -/
theorem cmd_bufs_desc :
    ∃ r, parseCmd ["dmactl", "qdma0", "q", "dump", "idx", "0", "desc", "0", "7"] {} = .ok r ∧
      BufsSized r.1 := by
  have h : parseCmd ["dmactl", "qdma0", "q", "dump", "idx", "0", "desc", "0", "7"] {} =
      .ok (dumpInfo .qDesc 0xd 0 7, 9) := by
    rw [parseCmd_family (by decide), show parseIfname "qdma0" = some (false, 0) by decide]
    rfl
  refine ⟨_, h, (cmd_bufs_iff h).mpr fun _ => ⟨fun hq => absurd hq (by decide),
    fun _ opts hopts => ?_, fun hq => absurd hq (by decide)⟩⟩
  rw [← flatMap_words_inj (show [QOpt.idx "0", .desc "0" "7"].flatMap QOpt.words = _ from hopts)]
  exact ⟨by decide, by decide⟩

/-- Lines that are accepted, with a range in the wrong order, with so many rows that the length is
negative or wraps around, and with a range that only begins behind the end of the ring. -/
theorem cmd_bufs_wrong :
    (∃ r, parseCmd ["dmactl", "qdma0", "q", "dump", "idx", "0", "desc", "5", "3"] {} = .ok r ∧
        r.1.range = (5, 3) ∧ ¬ BufsSized r.1) ∧
      (∃ r, parseCmd ["dmactl", "qdma0", "q", "dump", "idx", "0", "desc", "0", "21474837"] {} =
          .ok r ∧ toInt (getCmdRespBufLen r.1) < 0 ∧ ¬ BufsSized r.1) ∧
      (∃ r, parseCmd ["dmactl", "qdma0", "q", "dump", "idx", "0", "desc", "0", "42949673"] {} =
          .ok r ∧ toInt (getCmdRespBufLen r.1) = 2052 ∧ ¬ BufsSized r.1) ∧
      ∃ r, parseCmd ["dmactl", "qdma0", "intring", "dump", "vector", "0", "600"] {} = .ok r ∧
        r.1.range = (600, 511) ∧ toInt (getCmdRespBufLen r.1) < 0 ∧ ¬ BufsSized r.1 := by
  refine ⟨⟨(dumpInfo .qDesc 0xd 5 3, 9), ?_, by decide, fun h => absurd h.ordered (by decide)⟩,
    ⟨(dumpInfo .qDesc 0xd 0 21474837, 9), ?_, by decide, fun h => absurd h.min (by decide)⟩,
    ⟨(dumpInfo .qDesc 0xd 0 42949673, 9), ?_, by decide, fun h => absurd h.rows (by decide)⟩,
    ⟨({ op := .intrRingDump, intr := { startIdx := 600, endIdx := 511 } }, 7), ?_, by decide,
      by decide, fun h => absurd h.min (by decide)⟩⟩
  all_goals
    rw [parseCmd_family (by decide), show parseIfname "qdma0" = some (false, 0) by decide]
    rfl

end Qdma
