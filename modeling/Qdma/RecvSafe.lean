/-
# Taking a reply apart

`xnl_recv` receives a reply and looks at its header, and `recv_attrs` goes through its attributes,
by the length in the header and the lengths in the attributes, whatever has been received.

`recv_safe_iff`: that comes to an end and reads what was received just when every attribute that is
reached was received whole and has a length.
-/
import Qdma.Netlink

namespace Qdma

open ByteMem

/-! ## Receiving -/

/-- `sizeof(struct nlmsghdr)`. -/
def nlmsgHdrlen : ℕ := 16

/-- `NLMSG_ERROR`. -/
def nlmsgError : ℕ := 2

/-- The message buffer when `bs` has been received into it: `xnl_recv` clears it before. -/
def recvMsg (dlen : ℕ) (bs : List UInt8) : XnlMsg :=
  let mem : Mem := fun i => (bs.getD i 0).toNat
  { size := xnlHdrLen + dlen
    mem := mem
    nlmsgLen := ofBytesLe (read mem 0 4)
    nlmsgType := ofBytesLe (read mem 4 2)
    nlmsgFlags := ofBytesLe (read mem 6 2)
    nlmsgPid := ofBytesLe (read mem 12 4)
    cmd := mem 16 }

/-- `NLMSG_OK`, for `rv` bytes. -/
def nlmsgOk (m : XnlMsg) (rv : ℕ) : Bool :=
  decide (nlmsgHdrlen ≤ rv) && decide (nlmsgHdrlen ≤ m.nlmsgLen) && decide (m.nlmsgLen ≤ rv)

/-- Neither test of `xnl_recv` objects. -/
def xnlAccepts (m : XnlMsg) (rv : ℕ) : Bool :=
  !(!nlmsgOk m rv && decide (rv ≤ xnlHdrLen)) && decide (m.nlmsgType ≠ nlmsgError)

/-- `xnl_recv`, with what `recv` has received, if it has not failed. -/
def xnlRecv (dlen : ℕ) : Option (List UInt8) → XnlMsg × ℤ
  | none => ({ size := xnlHdrLen + dlen }, -1)
  | some bs =>
      let m := recvMsg dlen bs
      if !nlmsgOk m bs.length && decide (bs.length ≤ xnlHdrLen) then (m, -1)
      else if m.nlmsgType = nlmsgError then (m, -1)
      else (m, 0)

/-! ## What is read -/

/-- The bytes that `xnl_recv` reads, as offsets and lengths: `nlmsg_len`, `nlmsg_type`, and `cmd`
for its messages. -/
def xnlRecvReads (print : Bool) (m : XnlMsg) (rv : ℕ) : List (ℕ × ℕ) :=
  let cmd := if print then [(16, 1)] else []
  (if nlmsgHdrlen ≤ rv then [(0, 4)] else []) ++
    if !nlmsgOk m rv && decide (rv ≤ xnlHdrLen) then cmd
    else (4, 2) :: if m.nlmsgType = nlmsgError then cmd else []

/-- The length and the type of the attribute at `p`. -/
def XnlMsg.nlaLenAt (m : XnlMsg) (p : ℕ) : ℕ := ofBytesLe (read m.mem p 2)

def XnlMsg.nlaTypeAt (m : XnlMsg) (p : ℕ) : ℕ := ofBytesLe (read m.mem (p + 2) 2)

/-- The bytes read of its value: by `printf` and `strncpy` up to the zero byte, which may be missing
in the buffer. -/
def valueReads (m : XnlMsg) (p type : ℕ) : List (ℕ × ℕ) :=
  let q := p + nlaHdrlen
  let len := (cstr m.mem q (m.size - q)).length + 1
  if type = xnlAttrGenmsg then [(q, len)]
  else if type = xnlAttrDrvInfo then [(q, min 128 len)]
  else [(q, 4)]

/-- The bytes that the loop of `recv_attrs` reads in `fuel` rounds. -/
def loopReads (errDebug : Bool) (m : XnlMsg) : ℕ → ℕ → ℤ → List (ℕ × ℕ)
  | 0, _, _ => []
  | fuel + 1, p, maxlen =>
      if maxlen > 0 then
        (p, nlaHdrlen) ::
          if m.nlaTypeAt p ≥ xnlAttrMax errDebug then []
          else valueReads m p (m.nlaTypeAt p) ++
            loopReads errDebug m fuel (p + nlaAlign (m.nlaLenAt p))
              (maxlen - nlaAlign (m.nlaLenAt p))
      else []

/-- The bytes that `recv_attrs` reads in `fuel` rounds. -/
def recvAttrsReads (errDebug : Bool) (m : XnlMsg) (fuel : ℕ) : List (ℕ × ℕ) :=
  (0, 4) :: loopReads errDebug m fuel xnlHdrLen (toInt (u32Sub m.nlmsgLen xnlHdrLen))

/-! ## What is asked of it -/

/-- Only the first `n` bytes are read. -/
def ReadsWithin (n : ℕ) (reads : List (ℕ × ℕ)) : Prop := ∀ a ∈ reads, a.1 + a.2 ≤ n

/-- **What is written** lies in `attrs`, `drv_str` and `attr_mask`. -/
structure WritesInside (errDebug : Bool) (xcmd xcmd' : XcmdAttrs) : Prop where
  attrs : ∀ t, xnlAttrMax errDebug ≤ t → xcmd'.attrs t = xcmd.attrs t
  drvStr : xcmd'.drvStr = xcmd.drvStr ∨ xcmd'.drvStr.length = 128
  attrMask : xcmd'.attrMask < 2 ^ 32

/-- **`xnl_recv` and `recv_attrs` are safe** on a reply `bs`. -/
def RecvSafe (errDebug print : Bool) (dlen : ℕ) (bs : List UInt8) (xcmd : XcmdAttrs) : Prop :=
  ReadsWithin bs.length (xnlRecvReads print (recvMsg dlen bs) bs.length) ∧
    ((xnlRecv dlen (some bs)).2 = 0 →
      (∃ fuel s rv, recvAttrs errDebug (recvMsg dlen bs) fuel xcmd = some (s, rv) ∧
          WritesInside errDebug xcmd s.xcmd) ∧
        ∀ fuel, ReadsWithin bs.length (recvAttrsReads errDebug (recvMsg dlen bs) fuel))

/-- Where attribute `i` is. -/
def attrPos (m : XnlMsg) : ℕ → ℕ
  | 0 => xnlHdrLen
  | i + 1 => attrPos m i + nlaAlign (m.nlaLenAt (attrPos m i))

/-- The end of the message, by its header. -/
def XnlMsg.limit (m : XnlMsg) : ℤ := xnlHdrLen + toInt (u32Sub m.nlmsgLen xnlHdrLen)

/-- **Attribute `i` is reached**: it starts before the end, and those before it are of a known
type. -/
structure Reached (errDebug : Bool) (m : XnlMsg) (i : ℕ) : Prop where
  within : (attrPos m i : ℤ) < m.limit
  known : ∀ j < i, m.nlaTypeAt (attrPos m j) < xnlAttrMax errDebug

/-- A zero byte in `n` bytes at `q`. -/
def Terminated (m : XnlMsg) (q n : ℕ) : Prop := ∃ z < n, m.mem (q + z) = 0

/-- **The attribute at `p` is whole** in `n` bytes: its header is there, and if its type is known it
has a length, and its value is there, too. -/
structure AttrWhole (errDebug : Bool) (m : XnlMsg) (n p : ℕ) : Prop where
  header : p + nlaHdrlen ≤ n
  length : m.nlaTypeAt p < xnlAttrMax errDebug → m.nlaLenAt p ≠ 0
  value : m.nlaTypeAt p < xnlAttrMax errDebug →
    if m.nlaTypeAt p = xnlAttrGenmsg then Terminated m (p + nlaHdrlen) (n - (p + nlaHdrlen))
    else if m.nlaTypeAt p = xnlAttrDrvInfo then
      Terminated m (p + nlaHdrlen) (min 128 (n - (p + nlaHdrlen))) ∨ p + nlaHdrlen + 128 ≤ n
    else p + nlaHdrlen + 4 ≤ n

/-- **A reply is whole**: every attribute that is reached is; one that is refused with a message has
the byte that the message prints. -/
def ReplyWhole (errDebug print : Bool) (dlen : ℕ) (bs : List UInt8) : Prop :=
  if xnlAccepts (recvMsg dlen bs) bs.length then
    ∀ i, Reached errDebug (recvMsg dlen bs) i →
      AttrWhole errDebug (recvMsg dlen bs) bs.length (attrPos (recvMsg dlen bs) i)
  else print = true → 17 ≤ bs.length

/-! ## One attribute -/

/-- **What is read of a value** was received just when the value was. -/
theorem valueReads_within {m : XnlMsg} {n p type : ℕ} (hn : n ≤ m.size) :
    ReadsWithin n (valueReads m p type) ↔
      if type = xnlAttrGenmsg then Terminated m (p + nlaHdrlen) (n - (p + nlaHdrlen))
      else if type = xnlAttrDrvInfo then
        Terminated m (p + nlaHdrlen) (min 128 (n - (p + nlaHdrlen))) ∨ p + nlaHdrlen + 128 ≤ n
      else p + nlaHdrlen + 4 ≤ n := by
  unfold ReadsWithin valueReads Terminated
  simp only
  set q := p + nlaHdrlen with hq
  have hall : n - q ≤ m.size - q := Nat.sub_le_sub_right hn q
  have hmin : min 128 (n - q) ≤ m.size - q := (min_le_right _ _).trans hall
  rw [← cstr_length_lt_iff hall, ← cstr_length_lt_iff hmin]
  split_ifs
  · rw [List.forall_mem_singleton]
    simp only
    omega
  · rw [List.forall_mem_singleton]
    simp only
    omega
  · exact List.forall_mem_singleton

/-- Padding keeps a length from being nothing. -/
theorem nlaAlign_pos {len : ℕ} (h : len ≠ 0) : 0 < nlaAlign len := by
  unfold nlaAlign
  omega

/-! ## The rounds -/

/-- What is left before attribute `i`. -/
def XnlMsg.leftAt (m : XnlMsg) (i : ℕ) : ℤ := m.limit - attrPos m i

theorem leftAt_zero (m : XnlMsg) : m.leftAt 0 = toInt (u32Sub m.nlmsgLen xnlHdrLen) := by
  unfold XnlMsg.leftAt XnlMsg.limit
  show (xnlHdrLen : ℤ) + _ - (xnlHdrLen : ℤ) = _
  omega

theorem leftAt_succ (m : XnlMsg) (i : ℕ) :
    m.leftAt (i + 1) = m.leftAt i - nlaAlign (m.nlaLenAt (attrPos m i)) := by
  unfold XnlMsg.leftAt
  rw [attrPos]
  push_cast
  omega

theorem Reached.pos {errDebug : Bool} {m : XnlMsg} {i : ℕ} (h : Reached errDebug m i) :
    m.leftAt i > 0 := by
  have hlt := h.within
  unfold XnlMsg.leftAt
  omega

/-- What comes before an attribute that is reached is reached, too. -/
theorem Reached.before {errDebug : Bool} {m : XnlMsg} {i : ℕ} (h : Reached errDebug m (i + 1)) :
    Reached errDebug m i := by
  refine ⟨?_, fun j hj => h.known j (Nat.lt_succ_of_lt hj)⟩
  have hlt := h.within
  rw [attrPos] at hlt
  push_cast at hlt
  omega

/-- The state after a round of the loop. -/
def RecvState.round (m : XnlMsg) (s : RecvState) : RecvState :=
  let (xcmd, visit) := recvAttr m s (m.nlaTypeAt s.p)
  { xcmd := xcmd, p := s.p + nlaAlign (m.nlaLenAt s.p),
    maxlen := s.maxlen - nlaAlign (m.nlaLenAt s.p), visited := s.visited ++ [visit] }

/-- **A round of the loop**, -/
theorem recvAttrsLoop_round {errDebug : Bool} {m : XnlMsg} {s : RecvState} (fuel : ℕ)
    (hmax : s.maxlen > 0) (htype : m.nlaTypeAt s.p < xnlAttrMax errDebug) :
    recvAttrsLoop errDebug m (fuel + 1) s = recvAttrsLoop errDebug m fuel (s.round m) := by
  rw [recvAttrsLoop, if_pos hmax]
  exact if_neg (Nat.not_le.mpr htype)

/-- which ends at the first attribute of an unknown type, -/
theorem recvAttrsLoop_unknown {errDebug : Bool} {m : XnlMsg} {s : RecvState} (fuel : ℕ)
    (hmax : s.maxlen > 0) (htype : xnlAttrMax errDebug ≤ m.nlaTypeAt s.p) :
    recvAttrsLoop errDebug m (fuel + 1) s = some (s, einval) := by
  rw [recvAttrsLoop, if_pos hmax]
  exact if_pos htype

/-- and where nothing is left. -/
theorem recvAttrsLoop_end {errDebug : Bool} {m : XnlMsg} {s : RecvState} (fuel : ℕ)
    (hmax : ¬ s.maxlen > 0) : recvAttrsLoop errDebug m (fuel + 1) s = some (s, 0) := by
  rw [recvAttrsLoop, if_neg hmax]

/-- More fuel changes nothing. -/
theorem recvAttrsLoop_more {errDebug : Bool} {m : XnlMsg} {fuel : ℕ} {s : RecvState}
    {r : RecvState × ℤ} (h : recvAttrsLoop errDebug m fuel s = some r) (n : ℕ) :
    recvAttrsLoop errDebug m (fuel + n) s = some r := by
  induction fuel generalizing s with
  | zero => exact nomatch h
  | succ fuel ih =>
      rw [Nat.add_right_comm]
      by_cases hmax : s.maxlen > 0
      swap
      · rw [recvAttrsLoop_end _ hmax] at h ⊢
        exact h
      by_cases htype : m.nlaTypeAt s.p < xnlAttrMax errDebug
      · rw [recvAttrsLoop_round _ hmax htype] at h ⊢
        exact ih h
      · rw [recvAttrsLoop_unknown _ hmax (Nat.le_of_not_lt htype)] at h ⊢
        exact h

/-- What a round writes. -/
theorem recvAttr_writes {errDebug : Bool} {m : XnlMsg} {s : RecvState} {type : ℕ}
    (htype : type < xnlAttrMax errDebug) {xcmd : XcmdAttrs}
    (h : WritesInside errDebug xcmd s.xcmd) :
    WritesInside errDebug xcmd (recvAttr m s type).1 := by
  have hmask : u32 (s.xcmd.attrMask ||| 1 <<< type) < 2 ^ 32 := Nat.mod_lt _ (by decide)
  unfold recvAttr
  simp only
  split_ifs
  · exact ⟨h.attrs, h.drvStr, hmask⟩
  · refine ⟨h.attrs, .inr ?_, hmask⟩
    show (strncpy _ 128).length = 128
    unfold strncpy
    rw [List.length_append, List.length_take, List.length_replicate]
    omega
  · refine ⟨fun t ht => ?_, h.drvStr, hmask⟩
    have hne : t ≠ type := (htype.trans_le ht).ne'
    exact (Function.update_of_ne hne _ _).trans (h.attrs t ht)

/-- **Everything is written inside**, however long the loop runs. -/
theorem recvAttrsLoop_writes {errDebug : Bool} {m : XnlMsg} {fuel : ℕ} {s s' : RecvState} {rv : ℤ}
    {xcmd : XcmdAttrs} (h : WritesInside errDebug xcmd s.xcmd)
    (hrun : recvAttrsLoop errDebug m fuel s = some (s', rv)) :
    WritesInside errDebug xcmd s'.xcmd := by
  induction fuel generalizing s with
  | zero => exact nomatch hrun
  | succ fuel ih =>
      by_cases hmax : s.maxlen > 0
      swap
      · rw [recvAttrsLoop_end _ hmax] at hrun
        rw [← (Prod.mk.inj (Option.some.inj hrun)).1]
        exact h
      by_cases htype : m.nlaTypeAt s.p < xnlAttrMax errDebug
      · rw [recvAttrsLoop_round _ hmax htype] at hrun
        exact ih (recvAttr_writes htype h) hrun
      · rw [recvAttrsLoop_unknown _ hmax (Nat.le_of_not_lt htype)] at hrun
        rw [← (Prod.mk.inj (Option.some.inj hrun)).1]
        exact h

/-- The loop is before attribute `i`. -/
structure AtAttr (m : XnlMsg) (i : ℕ) (s : RecvState) : Prop where
  p : s.p = attrPos m i
  maxlen : s.maxlen = m.leftAt i

theorem AtAttr.round {m : XnlMsg} {i : ℕ} {s : RecvState} (h : AtAttr m i s) :
    AtAttr m (i + 1) (s.round m) := by
  constructor
  · show s.p + nlaAlign (m.nlaLenAt s.p) = attrPos m i + nlaAlign (m.nlaLenAt (attrPos m i))
    rw [h.p]
  · rw [leftAt_succ]
    show s.maxlen - nlaAlign (m.nlaLenAt s.p) = _
    rw [h.maxlen, h.p]

/-- **The loop comes to every attribute that is reached.** -/
theorem Reached.comes {errDebug : Bool} {m : XnlMsg} {i : ℕ} (h : Reached errDebug m i)
    {s : RecvState} (hs : AtAttr m 0 s) :
    ∃ s', AtAttr m i s' ∧
      ∀ fuel, recvAttrsLoop errDebug m (i + fuel) s = recvAttrsLoop errDebug m fuel s' := by
  induction i with
  | zero => exact ⟨s, hs, fun fuel => by rw [Nat.zero_add]⟩
  | succ i ih =>
      obtain ⟨s', hs', hrun⟩ := ih h.before
      refine ⟨s'.round m, hs'.round, fun fuel => ?_⟩
      have hmax : s'.maxlen > 0 := hs'.maxlen ▸ h.before.pos
      have htype : m.nlaTypeAt s'.p < xnlAttrMax errDebug := hs'.p ▸ h.known i (Nat.lt_succ_self i)
      rw [show i + 1 + fuel = i + (fuel + 1) by omega, hrun, recvAttrsLoop_round fuel hmax htype]

/-- **An attribute without a length** is visited for ever. -/
theorem AtAttr.forever {errDebug : Bool} {m : XnlMsg} {i : ℕ} (hpos : m.leftAt i > 0)
    (htype : m.nlaTypeAt (attrPos m i) < xnlAttrMax errDebug) (hlen : m.nlaLenAt (attrPos m i) = 0)
    (fuel : ℕ) {s : RecvState} (hs : AtAttr m i s) : recvAttrsLoop errDebug m fuel s = none := by
  induction fuel generalizing s with
  | zero => rfl
  | succ fuel ih =>
      rw [recvAttrsLoop_round fuel (hs.maxlen ▸ hpos) (hs.p ▸ htype)]
      refine ih ⟨?_, ?_⟩
      · show s.p + nlaAlign (m.nlaLenAt s.p) = _
        rw [hs.p, hlen]
        rfl
      · show s.maxlen - nlaAlign (m.nlaLenAt s.p) = _
        rw [hs.maxlen, hs.p, hlen]
        exact sub_zero _

/-- **The loop comes to an end** if every attribute that is reached has a length. -/
theorem recvAttrsLoop_terminates {errDebug : Bool} {m : XnlMsg}
    (hlen : ∀ i, Reached errDebug m i →
      m.nlaTypeAt (attrPos m i) < xnlAttrMax errDebug → m.nlaLenAt (attrPos m i) ≠ 0)
    {i : ℕ} {s : RecvState} (hs : AtAttr m i s)
    (hknown : ∀ j < i, m.nlaTypeAt (attrPos m j) < xnlAttrMax errDebug) :
    ∃ fuel r, recvAttrsLoop errDebug m fuel s = some r := by
  induction hn : (m.leftAt i).toNat using Nat.strong_induction_on generalizing i s with
  | _ n ih =>
      by_cases hpos : m.leftAt i > 0
      swap
      · exact ⟨1, _, recvAttrsLoop_end 0 (hs.maxlen ▸ hpos)⟩
      by_cases htype : m.nlaTypeAt (attrPos m i) < xnlAttrMax errDebug
      swap
      · exact ⟨1, _, recvAttrsLoop_unknown 0 (hs.maxlen ▸ hpos) (hs.p ▸ Nat.le_of_not_lt htype)⟩
      -- the attribute has a length, and less is left behind it
      have hreached : Reached errDebug m i := by
        refine ⟨?_, hknown⟩
        unfold XnlMsg.leftAt at hpos
        omega
      have halign := nlaAlign_pos (hlen i hreached htype)
      have hless : (m.leftAt (i + 1)).toNat < n := by
        rw [leftAt_succ]
        omega
      have hknown' : ∀ j < i + 1, m.nlaTypeAt (attrPos m j) < xnlAttrMax errDebug := by
        intro j hj
        rcases Nat.lt_succ_iff_lt_or_eq.mp hj with hlt | rfl
        · exact hknown j hlt
        · exact htype
      obtain ⟨fuel, r, hrun⟩ := ih _ hless hs.round hknown' rfl
      exact ⟨fuel + 1, r, (recvAttrsLoop_round fuel (hs.maxlen ▸ hpos) (hs.p ▸ htype)).trans hrun⟩

/-! ## What the rounds read -/

/-- A round reads the header, and the value behind it if its type is known. -/
theorem loopReads_round {errDebug : Bool} {m : XnlMsg} {i : ℕ} (fuel : ℕ) (hpos : m.leftAt i > 0) :
    loopReads errDebug m (fuel + 1) (attrPos m i) (m.leftAt i) =
      (attrPos m i, nlaHdrlen) ::
        if m.nlaTypeAt (attrPos m i) < xnlAttrMax errDebug then
          valueReads m (attrPos m i) (m.nlaTypeAt (attrPos m i)) ++
            loopReads errDebug m fuel (attrPos m (i + 1)) (m.leftAt (i + 1))
        else [] := by
  rw [loopReads, if_pos hpos, leftAt_succ, attrPos]
  by_cases htype : m.nlaTypeAt (attrPos m i) < xnlAttrMax errDebug
  · rw [if_pos htype, if_neg (Nat.not_le.mpr htype)]
  · rw [if_neg htype, if_pos (Nat.le_of_not_lt htype)]

/-- **Every attribute that is reached is read.** -/
theorem Reached.reads {errDebug : Bool} {m : XnlMsg} {i : ℕ} (h : Reached errDebug m i) :
    ∀ a ∈ (attrPos m i, nlaHdrlen) ::
        (if m.nlaTypeAt (attrPos m i) < xnlAttrMax errDebug then
          valueReads m (attrPos m i) (m.nlaTypeAt (attrPos m i)) else []),
      a ∈ loopReads errDebug m (i + 1) (attrPos m 0) (m.leftAt 0) := by
  have hprefix : ∃ pre, loopReads errDebug m (i + 1) (attrPos m 0) (m.leftAt 0) =
      pre ++ loopReads errDebug m 1 (attrPos m i) (m.leftAt i) := by
    have hall : ∀ n, ∃ pre, loopReads errDebug m (i + n) (attrPos m 0) (m.leftAt 0) =
        pre ++ loopReads errDebug m n (attrPos m i) (m.leftAt i) := by
      induction i with
      | zero => exact fun n => ⟨[], by rw [Nat.zero_add, List.nil_append]⟩
      | succ i ih =>
          intro n
          obtain ⟨pre, hpre⟩ := ih h.before (n + 1)
          rw [loopReads_round n h.before.pos, if_pos (h.known i (Nat.lt_succ_self i))] at hpre
          refine ⟨pre ++ (attrPos m i, nlaHdrlen) ::
            valueReads m (attrPos m i) (m.nlaTypeAt (attrPos m i)), ?_⟩
          rw [show i + 1 + n = i + (n + 1) by omega, hpre, List.append_assoc, List.cons_append]
    exact hall 1
  obtain ⟨pre, hpre⟩ := hprefix
  intro a ha
  rw [hpre, loopReads_round 0 h.pos]
  refine List.mem_append_right pre ?_
  rcases List.mem_cons.mp ha with rfl | hmem
  · exact List.mem_cons_self
  · by_cases htype : m.nlaTypeAt (attrPos m i) < xnlAttrMax errDebug
    · rw [if_pos htype] at hmem ⊢
      exact List.mem_cons_of_mem _ (List.mem_append_left _ hmem)
    · rw [if_neg htype] at hmem
      exact absurd hmem List.not_mem_nil

/-- **Nothing else is read.** -/
theorem loopReads_within {errDebug : Bool} {m : XnlMsg} {n : ℕ} (hn : n ≤ m.size)
    (hwhole : ∀ i, Reached errDebug m i → AttrWhole errDebug m n (attrPos m i)) (fuel : ℕ) {i : ℕ}
    (hknown : ∀ j < i, m.nlaTypeAt (attrPos m j) < xnlAttrMax errDebug) :
    ReadsWithin n (loopReads errDebug m fuel (attrPos m i) (m.leftAt i)) := by
  induction fuel generalizing i with
  | zero => exact fun a ha => absurd ha List.not_mem_nil
  | succ fuel ih =>
      by_cases hpos : m.leftAt i > 0
      swap
      · rw [loopReads, if_neg hpos]
        exact fun a ha => absurd ha List.not_mem_nil
      have hreached : Reached errDebug m i := by
        refine ⟨?_, hknown⟩
        unfold XnlMsg.leftAt at hpos
        omega
      have hattr := hwhole i hreached
      rw [loopReads_round fuel hpos]
      intro a ha
      rcases List.mem_cons.mp ha with rfl | hmem
      · exact hattr.header
      by_cases htype : m.nlaTypeAt (attrPos m i) < xnlAttrMax errDebug
      swap
      · rw [if_neg htype] at hmem
        exact absurd hmem List.not_mem_nil
      rw [if_pos htype] at hmem
      rcases List.mem_append.mp hmem with hvalue | hrest
      · exact (valueReads_within hn).mpr (hattr.value htype) a hvalue
      · refine ih (fun j hj => ?_) a hrest
        rcases Nat.lt_succ_iff_lt_or_eq.mp hj with hlt | rfl
        · exact hknown j hlt
        · exact htype

/-! ## A reply -/

/-- `xnl_recv` returns 0 just when neither test objects. -/
theorem xnlRecv_zero_iff (dlen : ℕ) (bs : List UInt8) :
    (xnlRecv dlen (some bs)).2 = 0 ↔ xnlAccepts (recvMsg dlen bs) bs.length = true := by
  unfold xnlRecv xnlAccepts
  simp only
  by_cases htest : (!nlmsgOk (recvMsg dlen bs) bs.length && decide (bs.length ≤ xnlHdrLen)) = true
  · rw [if_pos htest, htest]
    exact iff_of_false (show (-1 : ℤ) ≠ 0 by decide) (by simp)
  rw [if_neg htest, Bool.eq_false_iff.mpr htest]
  by_cases htype : (recvMsg dlen bs).nlmsgType = nlmsgError
  · rw [if_pos htype]
    exact iff_of_false (show (-1 : ℤ) ≠ 0 by decide) (by simp [htype])
  · rw [if_neg htype]
    exact iff_of_true rfl (by simp [htype])

/-- **What `xnl_recv` reads** was received, but for the command in its messages. -/
theorem xnlRecvReads_within (print : Bool) (m : XnlMsg) (rv : ℕ) :
    ReadsWithin rv (xnlRecvReads print m rv) ↔
      (xnlAccepts m rv = true ∨ (print = true → 17 ≤ rv)) := by
  have hcmd : ReadsWithin rv (if print then [(16, 1)] else []) ↔ (print = true → 17 ≤ rv) := by
    cases print <;> simp [ReadsWithin]
  have hlen : ReadsWithin rv (if nlmsgHdrlen ≤ rv then [(0, 4)] else []) := by
    intro a ha
    by_cases h16 : nlmsgHdrlen ≤ rv
    · rw [if_pos h16, List.mem_singleton] at ha
      rw [ha]
      exact le_trans (by decide) h16
    · rw [if_neg h16] at ha
      exact absurd ha List.not_mem_nil
  have happ : ∀ l, ReadsWithin rv ((if nlmsgHdrlen ≤ rv then [(0, 4)] else []) ++ l) ↔
      ReadsWithin rv l := by
    intro l
    constructor
    · exact fun h a ha => h a (List.mem_append_right _ ha)
    · intro h a ha
      rcases List.mem_append.mp ha with hl | hr
      · exact hlen a hl
      · exact h a hr
  unfold xnlRecvReads xnlAccepts
  simp only
  rw [happ]
  by_cases htest : (!nlmsgOk m rv && decide (rv ≤ xnlHdrLen)) = true
  · rw [if_pos htest, htest, hcmd]
    simp
  rw [if_neg htest, Bool.eq_false_iff.mpr htest]
  -- there is a header, or so many bytes that there could be one
  have h16 : nlmsgHdrlen ≤ rv := by
    by_contra hlt
    refine htest ?_
    unfold nlmsgOk xnlHdrLen
    unfold nlmsgHdrlen at hlt ⊢
    simp
    omega
  have hcons : ∀ l, ReadsWithin rv ((4, 2) :: l) ↔ ReadsWithin rv l := by
    intro l
    unfold ReadsWithin
    rw [List.forall_mem_cons]
    unfold nlmsgHdrlen at h16
    exact and_iff_right (by omega)
  rw [hcons]
  by_cases htype : m.nlmsgType = nlmsgError
  · rw [if_pos htype, hcmd]
    simp [htype]
  · rw [if_neg htype]
    simp [htype, ReadsWithin]

/-- **When a reply is taken apart safely**: for every byte string that fits the buffer, just when
it is whole. -/
theorem recv_safe_iff (errDebug print : Bool) {dlen : ℕ} {bs : List UInt8} (xcmd : XcmdAttrs)
    (hfit : bs.length ≤ dlen) :
    RecvSafe errDebug print dlen bs xcmd ↔ ReplyWhole errDebug print dlen bs := by
  unfold RecvSafe ReplyWhole
  rw [xnlRecvReads_within, xnlRecv_zero_iff]
  by_cases hacc : xnlAccepts (recvMsg dlen bs) bs.length = true
  swap
  · rw [if_neg hacc]
    simp [hacc]
  rw [if_pos hacc]
  simp only [hacc, true_or, true_and, forall_const]
  have h16 : 4 ≤ bs.length := by
    by_contra hlt
    unfold xnlAccepts nlmsgOk nlmsgHdrlen xnlHdrLen at hacc
    simp at hacc
    omega
  set m := recvMsg dlen bs with hm
  have hsize : bs.length ≤ m.size := hfit.trans (Nat.le_add_left dlen xnlHdrLen)
  have hstart : AtAttr m 0
      { xcmd := { xcmd with attrMask := 0 }
        p := xnlHdrLen
        maxlen := toInt (u32Sub m.nlmsgLen xnlHdrLen) } := ⟨rfl, (leftAt_zero m).symm⟩
  have hreads : ∀ fuel, recvAttrsReads errDebug m fuel =
      (0, 4) :: loopReads errDebug m fuel (attrPos m 0) (m.leftAt 0) := by
    intro fuel
    rw [leftAt_zero]
    rfl
  constructor
  · rintro ⟨⟨fuel, s, rv, hrun, -⟩, hwithin⟩ i hi
    have hin : ∀ a ∈ (attrPos m i, nlaHdrlen) ::
        (if m.nlaTypeAt (attrPos m i) < xnlAttrMax errDebug then
          valueReads m (attrPos m i) (m.nlaTypeAt (attrPos m i)) else []),
        a.1 + a.2 ≤ bs.length := by
      intro a ha
      refine hwithin (i + 1) a ?_
      rw [hreads]
      exact List.mem_cons_of_mem _ (hi.reads a ha)
    refine ⟨hin _ List.mem_cons_self, fun htype hlen => ?_, fun htype => ?_⟩
    · -- the loop would stay where it is
      obtain ⟨s', hs', hcomes⟩ := hi.comes hstart
      have hmore := recvAttrsLoop_more hrun i
      rw [Nat.add_comm fuel i, hcomes, AtAttr.forever hi.pos htype hlen fuel hs'] at hmore
      exact nomatch hmore
    · rw [if_pos htype] at hin
      rw [← valueReads_within hsize]
      exact fun a ha => hin a (List.mem_cons_of_mem _ ha)
  · intro hwhole
    constructor
    · obtain ⟨fuel, ⟨s, rv⟩, hrun⟩ := recvAttrsLoop_terminates
        (fun i hi => (hwhole i hi).length) hstart (fun j hj => absurd hj (Nat.not_lt_zero j))
      refine ⟨fuel, s, rv, hrun, recvAttrsLoop_writes ?_ hrun⟩
      exact ⟨fun _ _ => rfl, .inl rfl, show 0 < 2 ^ 32 by decide⟩
    · intro fuel
      rw [hreads]
      intro a ha
      rcases List.mem_cons.mp ha with rfl | hmem
      · exact h16
      · exact loopReads_within hsize hwhole fuel (fun j hj => absurd hj (Nat.not_lt_zero j)) a hmem

/-- What comes before an attribute that is reached is reached, all of it. -/
theorem Reached.le {errDebug : Bool} {m : XnlMsg} {i j : ℕ} (h : Reached errDebug m i)
    (hj : j ≤ i) : Reached errDebug m j := by
  induction i with
  | zero => exact Nat.le_zero.mp hj ▸ h
  | succ i ih =>
      rcases Nat.le_succ_iff.mp hj with hle | rfl
      · exact ih h.before hle
      · exact h

/-- A reply of `len` bytes by its header, with `attrs`. -/
def replyOf (len : UInt8) (attrs : List UInt8) : List UInt8 :=
  [len, 0, 0, 0, 25, 0, 0, 0, 0, 0, 0, 0, 0, 0, 0, 0, 1, 0, 0, 0] ++ attrs

/-- A reply with attributes 3 and 4, of values 7 and 9. -/
theorem recv_safe_values :
    RecvSafe false true 64 (replyOf 36 [8, 0, 3, 0, 7, 0, 0, 0, 8, 0, 4, 0, 9, 0, 0, 0]) {} := by
  refine (recv_safe_iff false true {} (by decide)).mpr ?_
  unfold ReplyWhole
  rw [if_pos (by decide)]
  intro i hi
  -- the end is before a third attribute
  have hlt : i < 2 := by
    by_contra hge
    exact absurd (hi.le (not_lt.mp hge)).within (by decide)
  obtain rfl | rfl : i = 0 ∨ i = 1 := by omega
  all_goals
    refine ⟨by decide, fun _ => by decide, fun _ => ?_⟩
    rw [if_neg (by decide), if_neg (by decide)]
    decide

/-- A reply whose attribute has no length is gone through for ever, and one that is shorter than its
header says is read further than it goes. -/
theorem recv_unsafe :
    (∀ fuel, recvAttrs false (recvMsg 64 (replyOf 28 [0, 0, 3, 0, 7, 0, 0, 0])) fuel {} = none) ∧
      (xnlRecv 64 (some (replyOf 36 [8, 0, 3, 0, 7, 0, 0, 0]))).2 = 0 ∧
      ¬ ReadsWithin (replyOf 36 [8, 0, 3, 0, 7, 0, 0, 0]).length
        (recvAttrsReads false (recvMsg 64 (replyOf 36 [8, 0, 3, 0, 7, 0, 0, 0])) 2) ∧
      ¬ RecvSafe false true 64 (replyOf 28 [0, 0, 3, 0, 7, 0, 0, 0]) {} := by
  have hforever : ∀ fuel,
      recvAttrs false (recvMsg 64 (replyOf 28 [0, 0, 3, 0, 7, 0, 0, 0])) fuel {} = none := by
    intro fuel
    exact AtAttr.forever (i := 0) (by decide) (by decide) (by decide) fuel ⟨rfl, by decide⟩
  refine ⟨hforever, by decide, ?_, fun hsafe => ?_⟩
  · exact fun h => absurd (h (28, nlaHdrlen) (by decide)) (by decide)
  · obtain ⟨⟨fuel, s, rv, hrun, -⟩, -⟩ := hsafe.2 (by decide)
    rw [hforever] at hrun
    exact nomatch hrun

end Qdma
