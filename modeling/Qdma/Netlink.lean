/-
# Messages of the user tool

The tool sends the driver a generic netlink message of attributes, each with a length, a type and
a value, padded to a multiple of four bytes: `xnl_msg_set_hdr`, `xnl_msg_add_int_attr` and
`xnl_msg_add_str_attr` build one, and `recv_attrs` takes one apart.

`attrs_round_trip` says that what is taken apart is what was put together, for attributes whose
length fits the sixteen bits it has; `long_string_lost` has a string that does not fit.
-/
import Qdma.ByteMem
import Qdma.Fmap

namespace Qdma

open ByteMem

/-! ## Writing a message -/

/-- `NLA_HDRLEN`. -/
def nlaHdrlen : ℕ := 4

/-- `NLMSG_LENGTH(GENL_HDRLEN)`, which is `sizeof(struct xnl_hdr)`. -/
def xnlHdrLen : ℕ := 20

/-- `NLA_ALIGN` and `NLMSG_ALIGN`. -/
def nlaAlign (len : ℕ) : ℕ := (len + 3) / 4 * 4

/-- `NLM_F_REQUEST`. -/
def nlmFRequest : ℕ := 1

/-- A `struct xnl_gen_msg` of `size` bytes, its header apart; `oob` says that bytes were written
behind its end. -/
structure XnlMsg where
  size : ℕ
  mem : Mem := fun _ => 0
  nlmsgLen : ℕ := 0
  nlmsgType : ℕ := 0
  nlmsgFlags : ℕ := 0
  nlmsgPid : ℕ := 0
  cmd : ℕ := 0
  oob : Bool := false

/-- `xnl_msg_alloc`. -/
def xnlMsgAlloc (dlen : ℕ) : XnlMsg := { size := xnlHdrLen + dlen }

/-- `xnl_msg_set_hdr`, called by process `pid`. -/
def xnlMsgSetHdr (m : XnlMsg) (pid family op : ℕ) : XnlMsg :=
  { m with
    nlmsgLen := xnlHdrLen
    nlmsgType := u16 family
    nlmsgFlags := nlmFRequest
    nlmsgPid := pid
    cmd := op % 256 }

/-- Bytes are stored in a message. -/
def XnlMsg.store (m : XnlMsg) (off : ℕ) (bs : List ℕ) : XnlMsg :=
  { m with mem := write m.mem off bs, oob := m.oob || decide (m.size < off + bs.length) }

/-- `xnl_msg_add_int_attr`. -/
def xnlMsgAddIntAttr (m : XnlMsg) (type v : ℕ) : XnlMsg :=
  let attr := m.nlmsgLen
  let m := m.store (attr + 2) (bytesLe 2 type)
  let m := m.store attr (bytesLe 2 (4 + nlaHdrlen))
  let m := m.store (attr + nlaHdrlen) (bytesLe 4 v)
  { m with nlmsgLen := u32 (m.nlmsgLen + nlaAlign (4 + nlaHdrlen)) }

/-- A string: characters other than the zero byte. -/
structure CString where
  chars : List ℕ
  nonzero : 0 ∉ chars

/-- `xnl_msg_add_str_attr`.  `nla_len` is a `__u16`. -/
def xnlMsgAddStrAttr (m : XnlMsg) (type : ℕ) (s : CString) : XnlMsg :=
  let attr := m.nlmsgLen
  let nlaLen := u16 (s.chars.length + 1 + nlaHdrlen)
  let m := m.store (attr + 2) (bytesLe 2 type)
  let m := m.store attr (bytesLe 2 nlaLen)
  let m := m.store (attr + nlaHdrlen) (s.chars ++ [0])
  { m with nlmsgLen := u32 (m.nlmsgLen + nlaAlign nlaLen) }

/-! ## Reading it -/

/-- `XNL_ATTR_GENMSG`. -/
def xnlAttrGenmsg : ℕ := 0

/-- `XNL_ATTR_DRV_INFO`. -/
def xnlAttrDrvInfo : ℕ := 1

/-- `XNL_ATTR_MAX`, with and without `ERR_DEBUG`. -/
def xnlAttrMax (errDebug : Bool) : ℕ := if errDebug then 31 else 27

/-- The fields of `struct xcmd_info` that `recv_attrs` writes. -/
structure XcmdAttrs where
  attrMask : ℕ := 0
  attrs : ℕ → ℕ := fun _ => 0
  drvStr : List ℕ := []

/-- What `recv_attrs` does with an attribute: it prints it, copies it, or enters its value. -/
inductive Visit where
  | genmsg (s : List ℕ)
  | drvInfo (s : List ℕ)
  | value (type v : ℕ)

/-- The loop of `recv_attrs`: what is left of the message, and what has been visited. -/
structure RecvState where
  xcmd : XcmdAttrs
  p : ℕ
  maxlen : ℤ
  visited : List Visit := []

/-- `strncpy(dst, s, n)`. -/
def strncpy (s : List ℕ) (n : ℕ) : List ℕ := s.take n ++ List.replicate (n - s.length) 0

/-- One attribute, of type `type`. -/
def recvAttr (m : XnlMsg) (s : RecvState) (type : ℕ) : XcmdAttrs × Visit :=
  let xcmd := { s.xcmd with attrMask := u32 (s.xcmd.attrMask ||| 1 <<< type) }
  let str := cstr m.mem (s.p + nlaHdrlen) (m.size - (s.p + nlaHdrlen))
  if type = xnlAttrGenmsg then (xcmd, .genmsg str)
  else if type = xnlAttrDrvInfo then ({ xcmd with drvStr := strncpy str 128 }, .drvInfo str)
  else
    let v := ofBytesLe (read m.mem (s.p + nlaHdrlen) 4)
    ({ xcmd with attrs := Function.update xcmd.attrs type v }, .value type v)

/-- The loop, for at most `fuel` rounds. -/
def recvAttrsLoop (errDebug : Bool) (m : XnlMsg) : ℕ → RecvState → Option (RecvState × ℤ)
  | 0, _ => none
  | fuel + 1, s =>
      if s.maxlen > 0 then
        let nlaLen := ofBytesLe (read m.mem s.p 2)
        let nlaType := ofBytesLe (read m.mem (s.p + 2) 2)
        let len := nlaAlign nlaLen
        if nlaType ≥ xnlAttrMax errDebug then some (s, einval)
        else
          let (xcmd, visit) := recvAttr m s nlaType
          recvAttrsLoop errDebug m fuel
            { xcmd := xcmd, p := s.p + len, maxlen := s.maxlen - len,
              visited := s.visited ++ [visit] }
      else some (s, 0)

/-- An `unsigned int` as an `int`. -/
def toInt (n : ℕ) : ℤ := if n < 2 ^ 31 then n else (n : ℤ) - 2 ^ 32

theorem toInt_lt {n : ℕ} (hn : n < 2 ^ 32) : toInt n < 2 ^ 31 := by
  unfold toInt
  split_ifs <;> omega

theorem toInt_of_lt {n : ℕ} (h : n < 2 ^ 31) : toInt n = n := if_pos h

/-- `recv_attrs`. -/
def recvAttrs (errDebug : Bool) (m : XnlMsg) (fuel : ℕ) (xcmd : XcmdAttrs) :
    Option (RecvState × ℤ) :=
  recvAttrsLoop errDebug m fuel
    { xcmd := { xcmd with attrMask := 0 }, p := xnlHdrLen,
      maxlen := toInt (u32Sub m.nlmsgLen xnlHdrLen) }

/-! ## Attributes -/

/-- An attribute. -/
inductive Attr where
  | int (type v : ℕ)
  | str (type : ℕ) (s : CString)

/-- Its type. -/
def Attr.type : Attr → ℕ
  | .int type _ => type
  | .str type _ => type

/-- Its bytes after the header. -/
def Attr.payload : Attr → List ℕ
  | .int _ v => bytesLe 4 v
  | .str _ s => s.chars ++ [0]

/-- Its length, without the padding. -/
def Attr.nlaLen (a : Attr) : ℕ := a.payload.length + nlaHdrlen

/-- The length of a list of them, each padded. -/
def attrsLen (attrs : List Attr) : ℕ := (attrs.map (fun a => nlaAlign a.nlaLen)).sum

/-- The attribute goes into a message. -/
def xnlMsgAddAttr (m : XnlMsg) : Attr → XnlMsg
  | .int type v => xnlMsgAddIntAttr m type v
  | .str type s => xnlMsgAddStrAttr m type s

/-- The message with these attributes. -/
def xnlMsg (dlen pid family op : ℕ) (attrs : List Attr) : XnlMsg :=
  attrs.foldl xnlMsgAddAttr (xnlMsgSetHdr (xnlMsgAlloc dlen) pid family op)

/-- What the reader does with it. -/
def Attr.visit : Attr → Visit
  | .int type v => .value type v
  | .str type s => if type = xnlAttrGenmsg then .genmsg s.chars else .drvInfo s.chars

/-- The value it enters for type `t`. -/
def Attr.valueOf (t : ℕ) : Attr → Option ℕ
  | .int type v => if type = t then some v else none
  | .str _ _ => none

/-- **The attributes that can be sent**: numbers of an integer type, and strings of a string type
whose length fits `nla_len`. -/
def Attr.Ok (errDebug : Bool) : Attr → Prop
  | .int type v => xnlAttrDrvInfo < type ∧ type < xnlAttrMax errDebug ∧ v < 2 ^ 32
  | .str type s => type ≤ xnlAttrDrvInfo ∧ s.chars.length + 1 + nlaHdrlen < 2 ^ 16

/-- **Reading is the inverse of writing**: the reader visits these attributes, knows their types
and last values, and comes to the end of the message, all of which lies in the buffer. -/
def RoundTrip (errDebug : Bool) (dlen pid family op : ℕ) (attrs : List Attr) (xcmd : XcmdAttrs) :
    Prop :=
  (xnlMsg dlen pid family op attrs).oob = false ∧
    ∃ s, (∀ fuel > attrs.length,
        recvAttrs errDebug (xnlMsg dlen pid family op attrs) fuel xcmd = some (s, 0)) ∧
      s.visited = attrs.map Attr.visit ∧
      (∀ t, s.xcmd.attrMask.testBit t = true ↔ ∃ a ∈ attrs, a.type = t) ∧
      (∀ t, s.xcmd.attrs t = ((attrs.filterMap (Attr.valueOf t)).getLast?).getD (xcmd.attrs t)) ∧
      s.p = (xnlMsg dlen pid family op attrs).nlmsgLen ∧ s.maxlen = 0

/-! ## What the writer leaves -/

/-- The bytes of an attribute. -/
def Attr.bytes (a : Attr) : List ℕ := bytesLe 2 a.nlaLen ++ (bytesLe 2 a.type ++ a.payload)

/-- The attributes stand in memory from `p` on. -/
def Laid (mem : Mem) : ℕ → List Attr → Prop
  | _, [] => True
  | p, a :: attrs => read mem p a.nlaLen = a.bytes ∧ Laid mem (p + nlaAlign a.nlaLen) attrs

theorem le_nlaAlign (n : ℕ) : n ≤ nlaAlign n := by
  unfold nlaAlign
  omega

theorem nlaLen_le {errDebug : Bool} {a : Attr} (h : a.Ok errDebug) : a.nlaLen < 2 ^ 16 := by
  unfold Attr.nlaLen
  cases a with
  | int type v =>
      rw [Attr.payload, length_bytesLe]
      decide
  | str type s =>
      rw [Attr.payload, List.length_append]
      exact h.2

theorem attrsLen_cons (a : Attr) (attrs : List Attr) :
    attrsLen (a :: attrs) = nlaAlign a.nlaLen + attrsLen attrs := by
  unfold attrsLen
  rw [List.map_cons, List.sum_cons]

theorem attrsLen_append (attrs attrs' : List Attr) :
    attrsLen (attrs ++ attrs') = attrsLen attrs + attrsLen attrs' := by
  unfold attrsLen
  rw [List.map_append, List.sum_append]

theorem laid_append {mem : Mem} {p : ℕ} {attrs : List Attr} {a : Attr} :
    Laid mem p (attrs ++ [a]) ↔
      Laid mem p attrs ∧ read mem (p + attrsLen attrs) a.nlaLen = a.bytes := by
  induction attrs generalizing p with
  | nil => exact ⟨fun h => ⟨trivial, h.1⟩, fun h => ⟨h.2, trivial⟩⟩
  | cons b attrs ih =>
      rw [List.cons_append, Laid, ih, Laid, attrsLen_cons, Nat.add_assoc, and_assoc]

/-- What is written behind them leaves them alone. -/
theorem Laid.congr {mem mem' : Mem} {p : ℕ} {attrs : List Attr} (h : Laid mem p attrs)
    (hsame : ∀ off n, off + n ≤ p + attrsLen attrs → read mem' off n = read mem off n) :
    Laid mem' p attrs := by
  induction attrs generalizing p with
  | nil => trivial
  | cons a attrs ih =>
      rw [attrsLen_cons] at hsame
      have hle := le_nlaAlign a.nlaLen
      constructor
      · rw [hsame p a.nlaLen (by omega)]
        exact h.1
      · exact ih h.2 (fun off n hle' => hsame off n (by omega))

/-- **What writing an attribute does** to a message. -/
structure Added (m m' : XnlMsg) (a : Attr) : Prop where
  size : m'.size = m.size
  oob : m'.oob = m.oob
  nlmsgLen : m'.nlmsgLen = m.nlmsgLen + nlaAlign a.nlaLen
  bytes : read m'.mem m.nlmsgLen a.nlaLen = a.bytes
  before : ∀ off n, off + n ≤ m.nlmsgLen → read m'.mem off n = read m.mem off n

/-- The three stores of an attribute: its type, its length, its value. -/
theorem stores_bytes (m : Mem) (off : ℕ) (len type payload : List ℕ) (hl : len.length = 2)
    (ht : type.length = 2) :
    read (write (write (write m (off + 2) type) off len) (off + 4) payload) off
        (payload.length + 4) = len ++ (type ++ payload) ∧
      ∀ off' n, off' + n ≤ off →
        read (write (write (write m (off + 2) type) off len) (off + 4) payload) off' n
          = read m off' n := by
  constructor
  · rw [show payload.length + 4 = 2 + (2 + payload.length) by omega, read_add, read_add]
    congr 1
    · rw [read_write_of_disjoint (.inl (by omega)), ← hl, read_write_self]
    congr 1
    · rw [read_write_of_disjoint (.inl (by omega)), read_write_of_disjoint (.inr (by omega)), ← ht,
        read_write_self]
    · rw [Nat.add_assoc]
      exact read_write_self _ (off + 4) payload
  · intro off' n hle
    rw [read_write_of_disjoint (.inl (by omega)), read_write_of_disjoint (.inl (by omega)),
      read_write_of_disjoint (.inl (by omega))]

/-- Bytes that fit are stored in the buffer. -/
theorem store_oob {m : XnlMsg} {off : ℕ} {bs : List ℕ} (h : off + bs.length ≤ m.size) :
    (m.store off bs).oob = m.oob := by
  have hno : decide (m.size < off + bs.length) = false := decide_eq_false (Nat.not_lt.mpr h)
  unfold XnlMsg.store
  rw [hno, Bool.or_false]

/-- An attribute that fits is added. -/
theorem xnlMsgAddAttr_added {errDebug : Bool} {m : XnlMsg} {a : Attr} (hok : a.Ok errDebug)
    (hfit : m.nlmsgLen + a.nlaLen ≤ m.size) (hlen : m.nlmsgLen + nlaAlign a.nlaLen < 2 ^ 32) :
    Added m (xnlMsgAddAttr m a) a := by
  have hlt := nlaLen_le hok
  cases a with
  | int type v =>
      have hsz : (Attr.int type v).nlaLen = 8 := by
        unfold Attr.nlaLen
        rw [Attr.payload, length_bytesLe]
        rfl
      rw [hsz] at hfit hlen
      obtain ⟨hbytes, hbefore⟩ := stores_bytes m.mem m.nlmsgLen (bytesLe 2 8) (bytesLe 2 type)
        (bytesLe 4 v) (length_bytesLe 2 _) (length_bytesLe 2 _)
      refine ⟨rfl, ?_, ?_, ?_, hbefore⟩
      · refine (store_oob ?_).trans ((store_oob ?_).trans (store_oob ?_))
        · rw [length_bytesLe]
          show m.nlmsgLen + 4 + 4 ≤ m.size
          omega
        · rw [length_bytesLe]
          show m.nlmsgLen + 2 ≤ m.size
          omega
        · rw [length_bytesLe]
          omega
      · rw [hsz]
        exact u32_of_lt hlen
      · rw [length_bytesLe] at hbytes
        unfold Attr.bytes
        rw [hsz]
        exact hbytes
  | str type s =>
      have hsz : (Attr.str type s).nlaLen = s.chars.length + 1 + nlaHdrlen := by
        unfold Attr.nlaLen
        rw [Attr.payload, List.length_append]
        rfl
      -- the length of the string fits the 16-bit field
      have hu : u16 (s.chars.length + 1 + nlaHdrlen) = (Attr.str type s).nlaLen := by
        rw [hsz]
        rw [hsz] at hlt
        exact Nat.mod_eq_of_lt hlt
      obtain ⟨hbytes, hbefore⟩ := stores_bytes m.mem m.nlmsgLen
        (bytesLe 2 (u16 (s.chars.length + 1 + nlaHdrlen))) (bytesLe 2 type)
        (s.chars ++ [0]) (length_bytesLe 2 _) (length_bytesLe 2 _)
      refine ⟨rfl, ?_, ?_, ?_, hbefore⟩
      · rw [hsz] at hfit
        unfold nlaHdrlen at hfit
        refine (store_oob ?_).trans ((store_oob ?_).trans (store_oob ?_))
        · rw [List.length_append]
          show m.nlmsgLen + 4 + (s.chars.length + 1) ≤ m.size
          omega
        · rw [length_bytesLe]
          show m.nlmsgLen + 2 ≤ m.size
          omega
        · rw [length_bytesLe]
          omega
      · show u32 (m.nlmsgLen + nlaAlign (u16 (s.chars.length + 1 + nlaHdrlen))) = _
        rw [hu]
        exact u32_of_lt hlen
      · refine hbytes.trans ?_
        rw [hu]
        rfl

/-- **The whole message.** -/
structure Built (dlen : ℕ) (m : XnlMsg) (attrs : List Attr) : Prop where
  size : m.size = xnlHdrLen + dlen
  oob : m.oob = false
  nlmsgLen : m.nlmsgLen = xnlHdrLen + attrsLen attrs
  laid : Laid m.mem xnlHdrLen attrs

theorem xnlMsg_built {errDebug : Bool} {dlen : ℕ} (hd : dlen < 2 ^ 31) (pid family op : ℕ)
    {attrs : List Attr} (hok : ∀ a ∈ attrs, a.Ok errDebug) (hfit : attrsLen attrs ≤ dlen) :
    Built dlen (xnlMsg dlen pid family op attrs) attrs := by
  induction attrs using List.reverseRecOn with
  | nil => exact ⟨rfl, rfl, rfl, trivial⟩
  | append_singleton attrs a ih =>
      have hlast : attrsLen (attrs ++ [a]) = attrsLen attrs + nlaAlign a.nlaLen := by
        rw [attrsLen_append, attrsLen_cons]
        rfl
      have hle := le_nlaAlign a.nlaLen
      have hb := ih (fun b hb => hok b (List.mem_append_left _ hb)) (by omega)
      have hm : xnlMsg dlen pid family op (attrs ++ [a])
          = xnlMsgAddAttr (xnlMsg dlen pid family op attrs) a := by
        unfold xnlMsg
        rw [List.foldl_append, List.foldl_cons, List.foldl_nil]
      rw [hm]
      generalize xnlMsg dlen pid family op attrs = m at hb
      have hadd := xnlMsgAddAttr_added (hok a (List.mem_append_right _ (List.mem_singleton_self a)))
        (m := m) (by rw [hb.nlmsgLen, hb.size]; omega)
        (by rw [hb.nlmsgLen]; unfold xnlHdrLen; omega)
      refine ⟨hadd.size.trans hb.size, hadd.oob.trans hb.oob, ?_, laid_append.mpr ⟨?_, ?_⟩⟩
      · rw [hadd.nlmsgLen, hb.nlmsgLen, hlast, Nat.add_assoc]
      · exact hb.laid.congr (fun off n hle => hadd.before off n (hb.nlmsgLen ▸ hle))
      · rw [← hb.nlmsgLen]
        exact hadd.bytes

/-! ## What the reader sees -/

/-- The fields of an attribute in memory. -/
theorem fields_of_bytes {errDebug : Bool} {mem : Mem} {p : ℕ} {a : Attr} (hok : a.Ok errDebug)
    (h : read mem p a.nlaLen = a.bytes) :
    ofBytesLe (read mem p 2) = a.nlaLen ∧ ofBytesLe (read mem (p + 2) 2) = a.type ∧
      read mem (p + nlaHdrlen) a.payload.length = a.payload := by
  have h1 := read_left h
  have h2 := read_right h
  rw [length_bytesLe] at h1 h2
  have h3 := read_left h2
  have h4 := read_right h2
  rw [length_bytesLe] at h3 h4
  have htype : a.type < 2 ^ 16 := by
    have hmax : xnlAttrMax errDebug < 2 ^ 16 := by cases errDebug <;> decide
    have hdrv : xnlAttrDrvInfo < 2 ^ 16 := by decide
    cases a with
    | int type v => exact lt_trans hok.2.1 hmax
    | str type s => exact lt_of_le_of_lt hok.1 hdrv
  refine ⟨?_, ?_, ?_⟩
  · rw [h1, ofBytesLe_bytesLe]
    exact Nat.mod_eq_of_lt (nlaLen_le hok)
  · rw [h3, ofBytesLe_bytesLe]
    exact Nat.mod_eq_of_lt htype
  · rw [Nat.add_assoc] at h4
    exact h4

/-- The reader's entry for an attribute. -/
def Attr.enter (x : XcmdAttrs) (a : Attr) : XcmdAttrs :=
  let x := { x with attrMask := u32 (x.attrMask ||| 1 <<< a.type) }
  match a with
  | .int type v => { x with attrs := Function.update x.attrs type v }
  | .str type s => if type = xnlAttrGenmsg then x else { x with drvStr := strncpy s.chars 128 }

/-- **One round** reads one attribute. -/
theorem recvAttr_enter {errDebug : Bool} {m : XnlMsg} {s : RecvState} {a : Attr}
    (hok : a.Ok errDebug) (h : read m.mem s.p a.nlaLen = a.bytes)
    (hfit : s.p + a.nlaLen ≤ m.size) :
    recvAttr m s a.type = (a.enter s.xcmd, a.visit) := by
  obtain ⟨-, -, hpay⟩ := fields_of_bytes hok h
  cases a with
  | int type v =>
      obtain ⟨hdrv, -, hv⟩ := hok
      have hv' : ofBytesLe (read m.mem (s.p + nlaHdrlen) 4) = v := by
        rw [Attr.payload, length_bytesLe] at hpay
        rw [hpay, ofBytesLe_bytesLe]
        exact Nat.mod_eq_of_lt hv
      have hgen : type ≠ xnlAttrGenmsg := (lt_trans (by decide) hdrv).ne'
      show recvAttr m s type = _
      unfold recvAttr
      simp only
      rw [if_neg hgen, if_neg hdrv.ne', hv']
      rfl
  | str type str =>
      have hlen : (Attr.str type str).nlaLen = str.chars.length + 1 + nlaHdrlen := by
        unfold Attr.nlaLen
        rw [Attr.payload, List.length_append]
        rfl
      have hstr : cstr m.mem (s.p + nlaHdrlen) (m.size - (s.p + nlaHdrlen)) = str.chars := by
        rw [Attr.payload, List.length_append] at hpay
        exact cstr_eq str.nonzero (by omega) hpay
      show recvAttr m s type = _
      unfold recvAttr
      simp only
      rw [hstr]
      by_cases htype : type = xnlAttrGenmsg
      · rw [if_pos htype]
        unfold Attr.enter Attr.visit
        simp only
        rw [if_pos htype, if_pos htype]
        rfl
      · have hdrv : type = xnlAttrDrvInfo := by
          have hle := hok.1
          unfold xnlAttrDrvInfo at hle ⊢
          unfold xnlAttrGenmsg at htype
          omega
        rw [if_neg htype, if_pos hdrv]
        unfold Attr.enter Attr.visit
        simp only
        rw [if_neg htype, if_neg htype]
        rfl

/-- **The loop** over attributes that stand in memory reads them all. -/
theorem recvAttrsLoop_laid {errDebug : Bool} {m : XnlMsg} {attrs : List Attr} {s : RecvState}
    (hok : ∀ a ∈ attrs, a.Ok errDebug) (hlaid : Laid m.mem s.p attrs)
    (hmax : s.maxlen = attrsLen attrs) (hfit : s.p + attrsLen attrs ≤ m.size) {fuel : ℕ}
    (hfuel : attrs.length < fuel) :
    recvAttrsLoop errDebug m fuel s =
      some ({ xcmd := attrs.foldl Attr.enter s.xcmd, p := s.p + attrsLen attrs, maxlen := 0,
              visited := s.visited ++ attrs.map Attr.visit }, 0) := by
  induction attrs generalizing s fuel with
  | nil =>
      obtain ⟨n, rfl⟩ : ∃ n, fuel = n + 1 := ⟨fuel - 1, by simp at hfuel; omega⟩
      have hzero : s.maxlen = 0 := hmax
      rw [recvAttrsLoop, hzero, if_neg (lt_irrefl (0 : ℤ)), List.map_nil, List.append_nil,
        ← hzero]
      rfl
  | cons a attrs ih =>
      obtain ⟨n, rfl⟩ : ∃ n, fuel = n + 1 := ⟨fuel - 1, by simp at hfuel; omega⟩
      have ha := hok a (.head _)
      rw [attrsLen_cons] at hmax hfit
      have hle := le_nlaAlign a.nlaLen
      have hpos : 0 < a.nlaLen := Nat.lt_of_lt_of_le (by decide) (Nat.le_add_left 4 _)
      obtain ⟨hlen, htype, -⟩ := fields_of_bytes ha hlaid.1
      have hlt : ¬ a.type ≥ xnlAttrMax errDebug := by
        have hdrv : xnlAttrDrvInfo < xnlAttrMax errDebug := by cases errDebug <;> decide
        cases a with
        | int type v => exact Nat.not_le.mpr ha.2.1
        | str type s => exact Nat.not_le.mpr (lt_of_le_of_lt ha.1 hdrv)
      rw [recvAttrsLoop, if_pos (by rw [hmax]; omega)]
      simp only
      rw [hlen, htype, if_neg hlt, recvAttr_enter ha hlaid.1 (by omega)]
      simp only
      rw [ih (fun b hb => hok b (.tail _ hb)) hlaid.2 (by rw [hmax]; push_cast; omega)
        (by show s.p + nlaAlign a.nlaLen + _ ≤ _; omega)
        (by rw [List.length_cons] at hfuel; omega)]
      rw [attrsLen_cons, List.foldl_cons, List.map_cons, List.append_assoc, Nat.add_assoc]
      rfl

/-! ## The round trip -/

/-- The types entered. -/
theorem enter_mask {errDebug : Bool} {attrs : List Attr} (hok : ∀ a ∈ attrs, a.Ok errDebug)
    (x : XcmdAttrs) (hx : x.attrMask < 2 ^ 32) (t : ℕ) :
    (attrs.foldl Attr.enter x).attrMask.testBit t = true ↔
      x.attrMask.testBit t = true ∨ ∃ a ∈ attrs, a.type = t := by
  induction attrs generalizing x with
  | nil => simp
  | cons a attrs ih =>
      have ha := hok a (.head _)
      have hmask : (Attr.enter x a).attrMask = u32 (x.attrMask ||| 1 <<< a.type) := by
        unfold Attr.enter
        cases a with
        | int type v => rfl
        | str type s =>
            simp only
            split_ifs <;> rfl
      have htype : a.type < 32 := by
        have hmax : xnlAttrMax errDebug ≤ 32 := by cases errDebug <;> decide
        cases a with
        | int type v => exact lt_of_lt_of_le ha.2.1 hmax
        | str type s => exact lt_of_le_of_lt ha.1 (by decide)
      have hbit : x.attrMask ||| 1 <<< a.type < 2 ^ 32 := by
        refine Nat.or_lt_two_pow hx ?_
        rw [Nat.one_shiftLeft]
        exact Nat.pow_lt_pow_right (by decide) htype
      rw [List.foldl_cons, ih (fun b hb => hok b (.tail _ hb)) _ (by
        rw [hmask]; exact Nat.mod_lt _ (by decide)), hmask, u32_of_lt hbit, Nat.testBit_or,
        Nat.one_shiftLeft, Nat.testBit_two_pow]
      simp only [Bool.or_eq_true, decide_eq_true_eq, List.mem_cons, exists_eq_or_imp, or_assoc]

/-- The values entered: the last one of each type. -/
theorem enter_attrs (attrs : List Attr) (x : XcmdAttrs) (t : ℕ) :
    (attrs.foldl Attr.enter x).attrs t
      = ((attrs.filterMap (Attr.valueOf t)).getLast?).getD (x.attrs t) := by
  induction attrs using List.reverseRecOn with
  | nil => rfl
  | append_singleton attrs a ih =>
      rw [List.foldl_append, List.foldl_cons, List.foldl_nil, List.filterMap_append]
      cases a with
      | int type v =>
          show Function.update (attrs.foldl Attr.enter x).attrs type v t = _
          by_cases htype : type = t
          · subst htype
            simp [Attr.valueOf]
          · rw [Function.update_of_ne (fun heq => htype heq.symm)]
            simpa [Attr.valueOf, htype] using ih
      | str type s =>
          have hsame : (Attr.enter (attrs.foldl Attr.enter x) (.str type s)).attrs
              = (attrs.foldl Attr.enter x).attrs := by
            unfold Attr.enter
            simp only
            split_ifs <;> rfl
          rw [hsame, ih]
          simp [Attr.valueOf]

/-- **Encoding and decoding are inverse.** -/
theorem attrs_round_trip (errDebug : Bool) {dlen : ℕ} (hd : dlen < 2 ^ 31) (pid family op : ℕ)
    {attrs : List Attr} (hok : ∀ a ∈ attrs, a.Ok errDebug) (hfit : attrsLen attrs ≤ dlen)
    (xcmd : XcmdAttrs) : RoundTrip errDebug dlen pid family op attrs xcmd := by
  have hb := xnlMsg_built hd pid family op hok hfit
  unfold RoundTrip
  generalize xnlMsg dlen pid family op attrs = m at hb
  have hmax : toInt (u32Sub m.nlmsgLen xnlHdrLen) = attrsLen attrs := by
    rw [hb.nlmsgLen, u32Sub_of_le (by unfold xnlHdrLen; omega) (Nat.le_add_right _ _),
      Nat.add_sub_cancel_left]
    exact if_pos (by omega)
  refine ⟨hb.oob, _, fun fuel hfuel => recvAttrsLoop_laid hok hb.laid hmax ?_ hfuel, ?_, ?_, ?_,
    ?_, rfl⟩
  · rw [hb.size]
    exact Nat.add_le_add_left hfit _
  · exact List.nil_append _
  · intro t
    rw [enter_mask hok _ (show 0 < 2 ^ 32 by decide)]
    simp
  · exact fun t => enter_attrs attrs _ t
  · exact hb.nlmsgLen.symm

/-- Two values for one type, with a string between them. -/
theorem attrs_round_trip_mixed : RoundTrip false 256 17 25 0
    [.int 12 7, .str 1 ⟨[51, 46, 49], by decide⟩, .int 12 9] {} := by
  refine attrs_round_trip false (by decide) 17 25 0 ?_ (by decide) {}
  intro a ha
  simp only [List.mem_cons, List.not_mem_nil, or_false] at ha
  rcases ha with rfl | rfl | rfl
  · exact ⟨by decide, by decide, by decide⟩
  · exact ⟨by decide, by decide⟩
  · exact ⟨by decide, by decide, by decide⟩

/-- The length of a string of 65531 characters is 0 in sixteen bits, and the message ends before
it. -/
theorem long_string_skipped {s : CString} (hs : s.chars.length = 65531) (type : ℕ) :
    attrsLen [.str type s] ≤ 70000 ∧ ¬ RoundTrip false 70000 17 25 0 [.str type s] {} := by
  constructor
  · show nlaAlign ((s.chars ++ [0]).length + nlaHdrlen) + 0 ≤ 70000
    rw [List.length_append, hs]
    decide
  · rintro ⟨-, st, hrecv, hvisited, -⟩
    have hlen : (xnlMsg 70000 17 25 0 [.str type s]).nlmsgLen = xnlHdrLen := by
      show u32 (xnlHdrLen + nlaAlign (u16 (s.chars.length + 1 + nlaHdrlen))) = _
      rw [hs]
      decide
    have hend := hrecv 2 (Nat.lt_succ_self 1)
    unfold recvAttrs at hend
    rw [hlen] at hend
    have hno := congrArg (fun r => r.1.visited) (Option.some.inj hend)
    rw [hvisited] at hno
    exact absurd hno.symm (List.cons_ne_nil _ _)

/-- A string of 65531 characters. -/
def longString : CString :=
  ⟨List.replicate 65531 65, fun h => absurd (List.eq_of_mem_replicate h) (by decide)⟩

theorem longString_length : longString.chars.length = 65531 := List.length_replicate

/-- **What is lost.**  A string of 65531 characters is not read at all; and one of an integer type
is read as a number. -/
theorem long_string_lost :
    attrsLen [.str xnlAttrGenmsg longString] ≤ 70000 ∧
      ¬ RoundTrip false 70000 17 25 0 [.str xnlAttrGenmsg longString] {} ∧
      ¬ RoundTrip false 256 17 25 0 [.str 12 ⟨[97, 98, 99], by decide⟩] {} := by
  obtain ⟨hfit, hno⟩ := long_string_skipped longString_length xnlAttrGenmsg
  refine ⟨hfit, hno, ?_⟩
  rintro ⟨-, s, hrecv, -, -, hattrs, -⟩
  have hread := hrecv 2 (by decide)
  have hval : (recvAttrs false (xnlMsg 256 17 25 0 [.str 12 ⟨[97, 98, 99], by decide⟩]) 2 {}).map
      (fun r => r.1.xcmd.attrs 12) = some 6513249 := by decide +kernel
  rw [hread] at hval
  have hkept : s.xcmd.attrs 12 = 0 := hattrs 12
  rw [Option.map_some, hkept] at hval
  exact absurd hval (by decide)

end Qdma
