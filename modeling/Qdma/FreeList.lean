/-
# The free list of an ST C2H queue

`FreeList` is the law of the receive buffers.  Positions are counted without wrapping:
`bufs` are all the buffers received so far, those before `pend` are read and those before
`base` posted again; every buffer not in use is clean.

One lemma for each function that works on the free list says how it keeps the law:
`FreeList.refill`, `FreeList.rcvPkt`, and for a read `FreeList.pass` and
`FreeList.partway`.
-/
import Qdma.C2hRead

namespace Qdma

open RingIndex

/-! ## The law of the free list -/

/-- One buffer of a received packet: its bytes, whether it is the packet's last, and the
number of completion entries up to that of the packet. -/
structure Buf where
  bytes : List UInt8
  eop : Bool
  seq : ℕ

/-- An unread buffer: it holds `b`, read up to its offset. -/
structure Holds (nw : ℕ) (x : RxBuf) (b : Buf) : Prop where
  valid : x.2.valid = true
  eop : x.2.eop = b.eop
  cidx : x.2.cidx = b.seq % nw
  len : x.1.offset + x.1.len = b.bytes.length
  page : pageBytes x.1.page 0 b.bytes.length = b.bytes

/-- A buffer at the device's disposal. -/
structure Clean (full : ℕ) (x : RxBuf) : Prop where
  valid : x.2.valid = false
  sop : x.2.sop = false
  eop : x.2.eop = false
  len : x.1.len = full
  offset : x.1.offset = 0

/-- **The law of the free list.**  Of the buffers `bufs` received so far those before
`base` are posted again, those before `pend` are read; all others are clean. -/
structure FreeList (n nw full : ℕ) (buf : ℕ → RxBuf) (avail base pend : ℕ)
    (bufs : List Buf) : Prop where
  base_le : base ≤ pend
  pend_le : pend ≤ bufs.length
  lt : bufs.length < base + n
  avail_eq : avail + (bufs.length - base) = n - 1
  holds : ∀ j (h : j < bufs.length), pend ≤ j → Holds nw (buf (j % n)) bufs[j]
  whole : ∀ j, pend < j → j < bufs.length → (buf (j % n)).1.offset = 0
  clean : ∀ j, bufs.length ≤ j → j < base + n → Clean full (buf (j % n))

/-- The free list of `d` obeys the law. -/
def Descq.FreeList (d : Descq) (base pend : ℕ) (bufs : List Buf) : Prop :=
  Qdma.FreeList d.conf.rngsz d.conf.rngszWrb d.conf.c2hBufsz d.bufAt d.avail base pend bufs

section FreeList

variable {n nw full : ℕ} {buf : ℕ → RxBuf} {avail base pend : ℕ} {bufs : List Buf}

/-- A buffer read to its end is passed over. -/
theorem FreeList.pass (h : FreeList n nw full buf avail base pend bufs) {k : ℕ}
    (hk : pend + k ≤ bufs.length) : FreeList n nw full buf avail base (pend + k) bufs :=
  { base_le := by have := h.base_le; omega
    pend_le := hk
    lt := h.lt
    avail_eq := h.avail_eq
    holds := fun j hj hp => h.holds j hj (by omega)
    whole := fun j hp hj => h.whole j (by omega) hj
    clean := h.clean }

/-- The oldest buffer read is posted again. -/
theorem FreeList.repost (h : FreeList n nw full buf avail base pend bufs) (hlt : base < pend)
    {x : RxBuf} (hx : Clean full x) :
    FreeList n nw full (Function.update buf (base % n) x) (avail + 1) (base + 1) pend bufs := by
  have hp := h.pend_le
  have hl := h.lt
  have ha := h.avail_eq
  have hne : ∀ j, base < j → j < base + n →
      Function.update buf (base % n) x (j % n) = buf (j % n) :=
    fun j h1 h2 => Function.update_of_ne (mod_ne_mod h1 h2).symm _ _
  refine ⟨hlt, hp, by omega, by omega, ?_, ?_, ?_⟩
  · intro j hj hpj
    rw [hne j (by omega) (by omega)]
    exact h.holds j hj hpj
  · intro j hpj hj
    rw [hne j (by omega) (by omega)]
    exact h.whole j hpj hj
  · intro j hj hjn
    by_cases hlast : j = base + n
    · rw [hlast, Nat.add_mod_right, Function.update_self]
      exact hx
    · rw [hne j (by omega) (by omega)]
      exact h.clean j hj (by omega)

/-- The first unread buffer is read up to a point before its end. -/
theorem FreeList.partway (h : FreeList n nw full buf avail base pend bufs)
    (hlt : pend < bufs.length) {x : RxBuf} (hx : Holds nw x bufs[pend]) :
    FreeList n nw full (Function.update buf (pend % n) x) avail base pend bufs := by
  have hb := h.base_le
  have hl := h.lt
  have hne : ∀ j, pend < j → j < base + n →
      Function.update buf (pend % n) x (j % n) = buf (j % n) :=
    fun j h1 h2 => Function.update_of_ne (mod_ne_mod h1 (by omega)).symm _ _
  refine ⟨hb, h.pend_le, hl, h.avail_eq, ?_, ?_, ?_⟩
  · intro j hj hpj
    by_cases hfirst : j = pend
    · subst hfirst
      rw [Function.update_self]
      exact hx
    · rw [hne j (by omega) (by omega)]
      exact h.holds j hj hpj
  · intro j hpj hj
    rw [hne j (by omega) (by omega)]
    exact h.whole j hpj hj
  · intro j hj hjn
    rw [hne j (by omega) (by omega)]
    exact h.clean j hj hjn

/-- The buffers of a packet join those received. -/
theorem FreeList.receive (h : FreeList n nw full buf avail base pend bufs) {new : List Buf}
    {buf' : ℕ → RxBuf} (hlt : bufs.length + new.length < base + n)
    (hold : ∀ j, base ≤ j → j < base + n → (j < bufs.length ∨ bufs.length + new.length ≤ j) →
      buf' (j % n) = buf (j % n))
    (hnew : ∀ j (hj : j < new.length), Holds nw (buf' ((bufs.length + j) % n)) new[j] ∧
      (buf' ((bufs.length + j) % n)).1.offset = 0) :
    FreeList n nw full buf' (avail - new.length) base pend (bufs ++ new) := by
  have hb := h.base_le
  have hp := h.pend_le
  have hl := h.lt
  have ha := h.avail_eq
  refine ⟨hb, by rw [List.length_append]; omega, by rw [List.length_append]; omega,
    by rw [List.length_append]; omega, ?_, ?_, ?_⟩
  · intro j hj hpj
    rw [List.length_append] at hj
    rw [List.getElem_append]
    split_ifs with hcase
    · rw [hold j (by omega) (by omega) (.inl hcase)]
      exact h.holds j hcase hpj
    · have := (hnew (j - bufs.length) (by omega)).1
      rwa [Nat.add_sub_cancel' (by omega)] at this
  · intro j hpj hj
    rw [List.length_append] at hj
    by_cases hcase : j < bufs.length
    · rw [hold j (by omega) (by omega) (.inl hcase)]
      exact h.whole j hpj hcase
    · have := (hnew (j - bufs.length) (by omega)).2
      rwa [Nat.add_sub_cancel' (by omega)] at this
  · intro j hj hjn
    rw [List.length_append] at hj
    rw [hold j (by omega) hjn (.inr hj)]
    exact h.clean j (by omega) hjn

/-- What the device writes to clean buffers does not matter. -/
theorem FreeList.write (h : FreeList n nw full buf avail base pend bufs) {buf' : ℕ → RxBuf}
    (hold : ∀ j, pend ≤ j → j < bufs.length → buf' (j % n) = buf (j % n))
    (hnew : ∀ i, (buf' i).2 = (buf i).2 ∧ (buf' i).1.len = (buf i).1.len ∧
      (buf' i).1.offset = (buf i).1.offset) : FreeList n nw full buf' avail base pend bufs := by
  refine ⟨h.base_le, h.pend_le, h.lt, h.avail_eq, ?_, ?_, ?_⟩
  · intro j hj hpj
    rw [hold j hpj hj]
    exact h.holds j hj hpj
  · intro j hpj hj
    rw [(hnew _).2.2]
    exact h.whole j hpj hj
  · intro j hj hjn
    obtain ⟨h1, h2, h3, h4, h5⟩ := h.clean j hj hjn
    obtain ⟨e1, e2, e3⟩ := hnew (j % n)
    exact ⟨by rw [e1]; exact h1, by rw [e1]; exact h2, by rw [e1]; exact h3,
      by rw [e2]; exact h4, by rw [e3]; exact h5⟩

end FreeList

/-! ## Posting buffers again -/

/-- The queue with other buffers. -/
def Descq.withBufs (d : Descq) (s : ℕ → FlSdesc) (x : ℕ → SdescInfo) (avail : ℕ) : Descq :=
  { d with flq := { d.flq with sdesc := s, sdescInfo := x }, avail := avail }

/-- The sizes a started ST C2H queue works with. -/
structure RxSizes (d : Descq) : Prop where
  pos : 1 ≤ d.conf.rngsz
  le_max : d.conf.rngsz ≤ 65535
  size : d.flq.size = d.conf.rngsz
  shift : d.flq.pgShift ≤ 31
  bufsz : d.conf.c2hBufsz = 2 ^ d.flq.pgShift
  full : d.flq.fullLen = d.conf.c2hBufsz
  noHandler : d.conf.fpDescqC2hPacket = none

/-- They are read off the configuration and the free list. -/
theorem RxSizes.congr {d d' : Descq} (h : RxSizes d) (hconf : d'.conf = d.conf)
    (hsize : d'.flq.size = d.flq.size) (hshift : d'.flq.pgShift = d.flq.pgShift)
    (hfull : d'.flq.fullLen = d.flq.fullLen) : RxSizes d' := by
  obtain ⟨z1, z2, z3, z4, z5, z6, z7⟩ := h
  constructor <;> simp only [hconf, hsize, hshift, hfull] <;> assumption

/-- **A refill** posts the oldest buffers read. -/
theorem FreeList.refill {d : Descq} (fill : ℕ → FillOutcome) (count : ℕ) {base pend idx : ℕ}
    {bufs : List Buf} (hsz : RxSizes d) (h : d.FreeList base pend bufs)
    (hle : base + count ≤ pend)
    (hidx : (if idx = d.conf.rngsz then 0 else idx) = base % d.conf.rngsz) :
    ∃ s x a, qdmaFlqRefill fill true count idx d = d.withBufs s x a ∧
      (d.withBufs s x a).FreeList (base + count) pend bufs ∧
      (∀ i, (s i).page = (d.flq.sdesc i).page) ∧
      ∀ j, base + count ≤ j → j < base + d.conf.rngsz →
        s (j % d.conf.rngsz) = d.flq.sdesc (j % d.conf.rngsz) := by
  induction count generalizing d base idx with
  | zero => exact ⟨_, _, _, rfl, h, fun _ => rfl, fun _ _ _ => rfl⟩
  | succ count ih =>
      have hn := hsz.pos
      have hlt : base % d.conf.rngsz < d.conf.rngsz := Nat.mod_lt _ hn
      set i := base % d.conf.rngsz with hi
      set d1 := (d.setFlq (d.flq.recycle i)).refilled i with hd1
      have hbuf : d1.bufAt = Function.update d.bufAt i (d1.bufAt i) := by
        funext k
        by_cases hk : k = i
        · rw [hk, Function.update_self]
        · rw [Function.update_of_ne hk, hd1]
          unfold Descq.bufAt Descq.refilled Descq.setFlq Flq.recycle Flq.setInfo Flq.setSdesc
          simp only [Function.update_of_ne hk]
      have hfull : (d1.bufAt i).1.len = d.flq.fullLen := by
        show (Function.update d.flq.sdesc i _ i).len = _
        rw [Function.update_self]
      have hoff : (d1.bufAt i).1.offset = 0 := by
        show (Function.update d.flq.sdesc i _ i).offset = _
        rw [Function.update_self]
      have hinfo : (d1.bufAt i).2
          = { d.flq.sdescInfo i with valid := false, sop := false, eop := false } := by
        show Function.update d.flq.sdescInfo i _ i = _
        rw [Function.update_self]
        rfl
      -- the oldest buffer read is as good as new
      have hclean : Clean d.conf.c2hBufsz (d1.bufAt i) :=
        ⟨by rw [hinfo], by rw [hinfo], by rw [hinfo], hfull.trans hsz.full, hoff⟩
      have h1 : d1.FreeList (base + 1) pend bufs := by
        have := FreeList.repost h (by omega) hclean
        rw [← hi, ← hbuf] at this
        exact this
      have hsz1 : RxSizes d1 := hsz.congr rfl rfl rfl rfl
      have hidx1 : (if i + 1 = d1.conf.rngsz then 0 else i + 1) = (base + 1) % d1.conf.rngsz := by
        show (if i + 1 = d.conf.rngsz then 0 else i + 1) = (base + 1) % d.conf.rngsz
        rw [← adv_one hlt, hi, adv_mod]
      obtain ⟨s, x, a, heq, hfl, hpage, hkeep⟩ := ih hsz1 h1 (by omega) hidx1
      refine ⟨s, x, a, ?_, ?_, ?_, ?_⟩
      · rw [qdmaFlqRefill, hsz.size, hidx, if_pos rfl]
        exact heq
      · rw [Nat.add_comm count 1, ← Nat.add_assoc]
        exact hfl
      · intro k
        rw [hpage k]
        by_cases hk : k = i
        · show (Function.update d.flq.sdesc i _ k).page = _
          rw [hk, Function.update_self]
        · show (Function.update d.flq.sdesc i _ k).page = _
          rw [Function.update_of_ne hk]
      · intro j hj hjn
        have := hkeep j (by omega) (by show j < base + 1 + d.conf.rngsz; omega)
        show s (j % d1.conf.rngsz) = _
        rw [this]
        show Function.update d.flq.sdesc i _ (j % d.conf.rngsz) = _
        rw [Function.update_of_ne (mod_ne_mod (by omega) (by omega)).symm]

/-! ## Cutting a packet into buffers -/

/-- The number of buffers of `full` bytes a packet of `len` bytes takes. -/
def pktNr (full len : ℕ) : ℕ := if len = 0 then 1 else (len + full - 1) / full

/-- A payload cut into `m` full buffers and a last one. -/
def cutBufs (full seq : ℕ) : ℕ → List UInt8 → List Buf
  | 0, p => [{ bytes := p, eop := true, seq := seq }]
  | m + 1, p => { bytes := p.take full, eop := false, seq := seq } :: cutBufs full seq m (p.drop full)

/-- The buffers of a packet. -/
def packetBufs (full seq : ℕ) (p : List UInt8) : List Buf :=
  cutBufs full seq (pktNr full p.length - 1) p

@[simp] theorem length_cutBufs (full seq m : ℕ) (p : List UInt8) :
    (cutBufs full seq m p).length = m + 1 := by
  induction m generalizing p with
  | zero => rfl
  | succ m ih => rw [cutBufs, List.length_cons, ih]

theorem getElem_cutBufs (full seq m : ℕ) (p : List UInt8) (j : ℕ)
    (h : j < (cutBufs full seq m p).length) :
    (cutBufs full seq m p)[j] =
      { bytes := if j = m then p.drop (j * full) else (p.drop (j * full)).take full
        eop := decide (j = m)
        seq := seq } := by
  induction m generalizing p j with
  | zero =>
      rw [length_cutBufs] at h
      obtain rfl : j = 0 := by omega
      simp [cutBufs]
  | succ m ih =>
      cases j with
      | zero => simp [cutBufs]
      | succ j =>
          simp only [cutBufs, List.getElem_cons_succ, ih, List.drop_drop, Nat.add_right_cancel_iff]
          rw [show full + j * full = (j + 1) * full by ring]

/-- Nothing of the payload is lost by cutting it. -/
theorem flatMap_cutBufs (full seq m : ℕ) (p : List UInt8) :
    (cutBufs full seq m p).flatMap Buf.bytes = p := by
  induction m generalizing p with
  | zero => simp [cutBufs]
  | succ m ih => rw [cutBufs, List.flatMap_cons, ih, List.take_append_drop]

theorem pktNr_pos {full : ℕ} (hf : 0 < full) (len : ℕ) : 1 ≤ pktNr full len := by
  unfold pktNr
  split_ifs with h
  · exact le_rfl
  · rw [Nat.le_div_iff_mul_le hf]
    omega

@[simp] theorem length_packetBufs {full : ℕ} (hf : 0 < full) (seq : ℕ) (p : List UInt8) :
    (packetBufs full seq p).length = pktNr full p.length := by
  have := pktNr_pos hf p.length
  rw [packetBufs, length_cutBufs]
  omega

/-- All buffers but the last are full, and the last one takes what is left. -/
theorem pktNr_bounds {full len : ℕ} (hf : 0 < full) (hlen : 0 < len) :
    (pktNr full len - 1) * full < len ∧ len ≤ (pktNr full len - 1) * full + full := by
  unfold pktNr
  rw [if_neg (by omega)]
  have hdm := Nat.div_add_mod (len + full - 1) full
  have hlt := Nat.mod_lt (len + full - 1) hf
  set q := (len + full - 1) / full with hq
  have hq1 : 1 ≤ q := by
    rw [hq, Nat.le_div_iff_mul_le hf]
    omega
  have hmul : full * q = (q - 1) * full + full := by
    rw [Nat.sub_mul, Nat.mul_comm full q]
    have : full ≤ q * full := Nat.le_mul_of_pos_left _ hq1
    omega
  omega

/-- `fl_nr` of `rcv_pkt` counts the buffers of the packet. -/
theorem flNr_eq {k len : ℕ} (hk : k ≤ 31) (hlen : len ≤ 65535) :
    flNr k len = pktNr (2 ^ k) len := by
  have hpow : 2 ^ k ≤ 2 ^ 31 := Nat.pow_le_pow_right (by decide) hk
  have hpos : 0 < 2 ^ k := Nat.two_pow_pos k
  unfold flNr pktNr
  have hmask : u32Sub (1 <<< k) 1 = 2 ^ k - 1 := by
    rw [Nat.one_shiftLeft]
    exact u32Sub_of_le (by omega) hpos
  by_cases h : len = 0
  · rw [if_neg (not_not.mpr h), if_pos h]
  · rw [if_pos h, if_neg h, hmask, u32_of_lt (by omega), Nat.shiftRight_eq_div_pow]
    congr 1
    omega

/-- The length `rcv_pkt` leaves in the last buffer is what the last buffer holds. -/
theorem lastLen_eq {k len : ℕ} (hk : k ≤ 31) (hlen : 0 < len) :
    len - (pktNr (2 ^ k) len - 1) * 2 ^ k
      = if len &&& u32Sub (1 <<< k) 1 = 0 then 2 ^ k else len &&& u32Sub (1 <<< k) 1 := by
  have hpow : 2 ^ k ≤ 2 ^ 31 := Nat.pow_le_pow_right (by decide) hk
  have hpos : 0 < 2 ^ k := Nat.two_pow_pos k
  have hmask : u32Sub (1 <<< k) 1 = 2 ^ k - 1 := by
    rw [Nat.one_shiftLeft]
    exact u32Sub_of_le (by omega) hpos
  rw [hmask, Nat.and_two_pow_sub_one_eq_mod]
  obtain ⟨h1, h2⟩ := pktNr_bounds hpos hlen
  set m := pktNr (2 ^ k) len - 1 with hm
  set r := len - m * 2 ^ k with hr
  have hlen' : len = r + 2 ^ k * m := by
    rw [Nat.mul_comm (2 ^ k) m]
    omega
  have hmod : len % 2 ^ k = r % 2 ^ k := by
    rw [hlen', Nat.add_mul_mod_self_left]
  rw [hmod]
  rcases Nat.lt_or_ge r (2 ^ k) with hlt | hge
  · rw [Nat.mod_eq_of_lt hlt, if_neg (by omega)]
  · have hrk : r = 2 ^ k := by omega
    rw [hrk, Nat.mod_self, if_pos rfl]

/-! ## Receiving a packet -/

/-- What the loop of `rcv_pkt` makes of the state bits of a buffer. -/
def SdescInfo.mark (cidxNext : ℕ) (x : SdescInfo) : SdescInfo :=
  { x with valid := true, cidx := cidxNext }

theorem markLoop_eq {c nr i : ℕ} {d : Descq} (hsize : d.flq.size = d.conf.rngsz)
    (hi : i < d.conf.rngsz) (hnr : nr ≤ d.conf.rngsz)
    (hvalid : ∀ j < nr, (d.flq.sdescInfo (adv d.conf.rngsz i j)).valid = false) :
    markLoop c nr i d = d.withBufs d.flq.sdesc
      (fill d.conf.rngsz d.flq.sdescInfo i (List.replicate nr (SdescInfo.mark c))) d.avail := by
  induction nr generalizing i d with
  | zero => rfl
  | succ nr ih =>
      have h0 : (d.flq.sdescInfo i).valid = false := by
        have := hvalid 0 (Nat.succ_pos nr)
        rwa [adv_zero hi] at this
      set d1 := d.withBufs d.flq.sdesc
        (Function.update d.flq.sdescInfo i ((d.flq.sdescInfo i).mark c)) d.avail with hd1
      have hmark : d.markValid i c = d1 := by
        unfold Descq.markValid
        simp only [h0, Bool.or_false]
        rfl
      have hnext : d.flq.next i = adv d.conf.rngsz i 1 := by
        rw [adv_one hi, Flq.next, hsize]
      have hlt : adv d.conf.rngsz i 1 < d1.conf.rngsz := adv_lt (n := d.conf.rngsz) (by omega)
      have hrest := ih (d := d1) hsize hlt (show nr ≤ d.conf.rngsz by omega) (by
        intro j hj
        have hne : adv d.conf.rngsz (adv d.conf.rngsz i 1) j ≠ i := by
          intro he
          have h1 : adv d.conf.rngsz i (1 + j) = adv d.conf.rngsz i 0 := by
            rw [← adv_adv, he, adv_zero hi]
          have := adv_inj hi (show 1 + j < d.conf.rngsz by omega) (by omega) h1
          omega
        show (Function.update d.flq.sdescInfo i _
          (adv d.conf.rngsz (adv d.conf.rngsz i 1) j)).valid = false
        rw [Function.update_of_ne hne, adv_adv, Nat.add_comm 1 j]
        exact hvalid (j + 1) (by omega))
      rw [markLoop, hmark, hnext, hrest]
      rfl

/-- The queue with other totals. -/
def Descq.withCounts (d : Descq) (pktDlen uddCnt : ℕ) : Descq :=
  { d with flq := { d.flq with pktDlen := pktDlen, uddCnt := uddCnt } }

theorem setSop_setEop (q : Flq) (a b i : ℕ) :
    ((q.setSop a).setEop b).sdescInfo i =
      { q.sdescInfo i with
        sop := decide (i = a) || (q.sdescInfo i).sop
        eop := decide (i = b) || (q.sdescInfo i).eop } := by
  unfold Flq.setEop Flq.setSop Flq.setInfo
  simp only [Function.update_apply]
  by_cases ha : i = a <;> by_cases hb : i = b
  · subst ha; subst hb; simp
  · subst ha; simp [hb]
  · subst hb; simp [ha]
  · simp [ha, hb]

/-- The last buffer of a packet gets the length of what it holds. -/
theorem setLastLen_eq {q : Flq} {last len : ℕ} (hk : q.pgShift ≤ 31)
    (hfull : (q.sdesc last).len = 2 ^ q.pgShift) :
    q.setLastLen last len = q.setSdesc last { q.sdesc last with
      len := len - (pktNr (2 ^ q.pgShift) len - 1) * 2 ^ q.pgShift } := by
  unfold Flq.setLastLen
  by_cases h0 : len = 0
  · rw [if_neg (not_not.mpr h0), h0, Nat.zero_sub]
  · rw [if_pos h0, lastLen_eq hk (by omega)]
    simp only
    by_cases h1 : len &&& u32Sub (1 <<< q.pgShift) 1 = 0
    · rw [if_neg (not_not.mpr h1), if_pos h1, ← hfull]
      unfold Flq.setSdesc
      rw [Function.update_eq_self]
    · rw [if_pos h1, if_neg h1]

/-- `uddCnt` after a packet. -/
def Descq.uddNext (d : Descq) : ℕ :=
  if d.conf.cmplUddEn then u32 (d.flq.uddCnt + 1) else d.flq.uddCnt

/-- The state bits once `rcv_pkt` has gone over the `nr` buffers from `i` to `last`. -/
def keptInfo (n : ℕ) (x : ℕ → SdescInfo) (i last nr c k : ℕ) : SdescInfo :=
  let y := fill n x i (List.replicate nr (SdescInfo.mark c)) k
  { y with sop := decide (k = i) || y.sop, eop := decide (k = last) || y.eop }

/-- `rcv_pkt` does not warn when its buffers are not in use. -/
theorem rcvPktKeep_eq {d : Descq} (hsize : d.flq.size = d.conf.rngsz) (i last nr len : ℕ)
    (hi : i < d.conf.rngsz) (hnr : nr ≤ d.conf.rngsz)
    (hvalid : ∀ j < nr, (d.flq.sdescInfo (adv d.conf.rngsz i j)).valid = false) :
    rcvPktKeep d i last nr len =
      (d.withBufs d.flq.sdesc (keptInfo d.conf.rngsz d.flq.sdescInfo i last nr
        (ringIdxIncr d.cidxWrb 1 d.conf.rngszWrb)) d.avail).withCounts
          (u32 (d.flq.pktDlen + len)) d.uddNext := by
  unfold rcvPktKeep
  rw [markLoop_eq hsize hi hnr hvalid]
  set d1 := d.withBufs d.flq.sdesc (fill d.conf.rngsz d.flq.sdescInfo i (List.replicate nr
    (SdescInfo.mark (ringIdxIncr d.cidxWrb 1 d.conf.rngszWrb)))) d.avail with hd1
  have hinfo : ((d1.flq.setSop i).setEop last).sdescInfo = keptInfo d.conf.rngsz
      d.flq.sdescInfo i last nr (ringIdxIncr d.cidxWrb 1 d.conf.rngszWrb) := by
    funext k
    exact setSop_setEop d1.flq i last k
  rw [← hinfo]
  rfl

section keptInfo

variable {n P nr c : ℕ} {x : ℕ → SdescInfo}

/-- The buffers of the packet are marked, the last of them as such. -/
theorem keptInfo_new (hn : 0 < n) (hnr : nr ≤ n) {j : ℕ} (hj : j < nr)
    (hx : (x ((P + j) % n)).eop = false) :
    (keptInfo n x (P % n) ((P + (nr - 1)) % n) nr c ((P + j) % n)).valid = true ∧
      (keptInfo n x (P % n) ((P + (nr - 1)) % n) nr c ((P + j) % n)).cidx = c ∧
      (keptInfo n x (P % n) ((P + (nr - 1)) % n) nr c ((P + j) % n)).eop
        = decide (j = nr - 1) := by
  have hfill : fill n x (P % n) (List.replicate nr (SdescInfo.mark c)) ((P + j) % n)
      = (x ((P + j) % n)).mark c := by
    rw [← adv_mod, fill_new x (Nat.mod_lt _ hn) _ (by rw [List.length_replicate]; exact hnr)
      (by rw [List.length_replicate]; exact hj), List.getElem_replicate]
  have hiff : (P + j) % n = (P + (nr - 1)) % n ↔ j = nr - 1 := by
    constructor
    · intro he
      by_contra hne
      exact mod_ne_mod (show P + j < P + (nr - 1) by omega) (by omega) he
    · intro he
      rw [he]
  unfold keptInfo
  simp only [hfill]
  refine ⟨rfl, rfl, ?_⟩
  have heop : ((x ((P + j) % n)).mark c).eop = false := hx
  rw [heop, Bool.or_false]
  simp only [hiff]

/-- The other buffers keep their state. -/
theorem keptInfo_old (hnr : 0 < nr) {k : ℕ} (hk : nr ≤ k) (hkn : k < n) :
    (P + k) % n ≠ (P + (nr - 1)) % n ∧
      keptInfo n x (P % n) ((P + (nr - 1)) % n) nr c ((P + k) % n) = x ((P + k) % n) := by
  have hfirst : (P + k) % n ≠ P % n := (mod_ne_mod (by omega) (by omega)).symm
  have hlast : (P + k) % n ≠ (P + (nr - 1)) % n := (mod_ne_mod (by omega) (by omega)).symm
  have hfill : fill n x (P % n) (List.replicate nr (SdescInfo.mark c)) ((P + k) % n)
      = x ((P + k) % n) := by
    rw [← adv_mod]
    exact fill_old x (Nat.mod_lt _ (by omega)) _ (by rw [List.length_replicate]; exact hk) hkn
  refine ⟨hlast, ?_⟩
  unfold keptInfo
  simp only [hfill, hfirst, hlast, decide_false, Bool.false_or]

end keptInfo

/-- The buffers once `rcv_pkt` has set the length of the last of them. -/
def lastSdesc (s : ℕ → FlSdesc) (last len : ℕ) : ℕ → FlSdesc :=
  Function.update s last { s last with len := len }

/-- What `rcv_pkt` makes of a packet of `nr` buffers that are not in use. -/
theorem rcvPkt_eq {d : Descq} {cmpl : CmplInfo} {len P nr : ℕ} (hsz : RxSizes d)
    (hlen : len ≤ 65535) (hpidx : cmpl.pidx = P % d.conf.rngsz)
    (hnr : nr = pktNr d.conf.c2hBufsz len) (hle : nr < d.conf.rngsz) (hav : nr ≤ d.avail)
    (havlt : d.avail < 2 ^ 32)
    (hclean : ∀ j < nr, Clean d.conf.c2hBufsz (d.bufAt ((P + j) % d.conf.rngsz))) :
    rcvPkt d cmpl len =
      ((d.withBufs
          (lastSdesc d.flq.sdesc ((P + (nr - 1)) % d.conf.rngsz)
            (len - (nr - 1) * d.conf.c2hBufsz))
          (keptInfo d.conf.rngsz d.flq.sdescInfo (P % d.conf.rngsz)
            ((P + (nr - 1)) % d.conf.rngsz) nr (ringIdxIncr d.cidxWrb 1 d.conf.rngszWrb))
          (d.avail - nr)).withCounts (u32 (d.flq.pktDlen + len)) d.uddNext,
        cmpl.withPidx ((P + nr) % d.conf.rngsz), 0) := by
  have hn := hsz.pos
  have hmax := hsz.le_max
  have hnr1 : 1 ≤ nr := by
    rw [hnr, hsz.bufsz]
    exact pktNr_pos (Nat.two_pow_pos _) len
  have hPn : P % d.conf.rngsz < d.conf.rngsz := Nat.mod_lt _ hn
  have hfl : flNr d.flq.pgShift len = nr := by rw [flNr_eq hsz.shift hlen, ← hsz.bufsz, hnr]
  have hlast : ringIdxIncr (P % d.conf.rngsz) (u32Sub nr 1) d.conf.rngsz
      = (P + (nr - 1)) % d.conf.rngsz := by
    rw [u32Sub_of_le (by omega) hnr1, ringIdxIncr_eq_adv (by omega) hPn (by omega), adv_mod]
  set last := (P + (nr - 1)) % d.conf.rngsz with hlastdef
  have hnext : ringIdxIncr last 1 d.conf.rngsz = (P + nr) % d.conf.rngsz := by
    rw [ringIdxIncr_eq_adv (by omega) (Nat.mod_lt _ hn) hn, adv_mod, Nat.add_assoc,
      Nat.sub_add_cancel hnr1]
  -- the last buffer holds what the ones before it leave
  have hset : d.flq.setLastLen last len
      = d.flq.setSdesc last { d.flq.sdesc last with len := len - (nr - 1) * d.conf.c2hBufsz } := by
    have hfull := (hclean (nr - 1) (by omega)).len
    rw [hsz.bufsz] at hfull hnr ⊢
    rw [hnr]
    exact setLastLen_eq hsz.shift hfull
  set d1 := d.withBufs (lastSdesc d.flq.sdesc last (len - (nr - 1) * d.conf.c2hBufsz))
    d.flq.sdescInfo (d.avail - nr) with hd1
  have hd1eq : ({ d with
      avail := u32Sub d.avail nr
      flq := d.flq.setLastLen last len } : Descq) = d1 := by
    rw [hset, u32Sub_of_le havlt hav]
    rfl
  have hvalid : ∀ j < nr,
      (d1.flq.sdescInfo (adv d.conf.rngsz (P % d.conf.rngsz) j)).valid = false := by
    intro j hj
    show (d.flq.sdescInfo (adv d.conf.rngsz (P % d.conf.rngsz) j)).valid = false
    rw [adv_mod]
    exact (hclean j hj).valid
  have hkeep := rcvPktKeep_eq (d := d1) hsz.size (P % d.conf.rngsz) last nr len hPn
    (show nr ≤ d.conf.rngsz by omega) hvalid
  unfold Qdma.rcvPkt
  simp only [hpidx, hfl, hlast, hsz.noHandler, hd1eq, hnext]
  rw [hkeep]
  rfl

/-- The bytes of the buffers of a packet. -/
theorem length_packetBuf {full seq : ℕ} (hf : 0 < full) (p : List UInt8) (j : ℕ)
    (h : j < (packetBufs full seq p).length) :
    (packetBufs full seq p)[j].bytes.length =
      if j = pktNr full p.length - 1 then p.length - (pktNr full p.length - 1) * full
      else full := by
  have hj := h
  rw [length_packetBufs hf] at hj
  unfold packetBufs at h ⊢
  rw [getElem_cutBufs]
  by_cases hlast : j = pktNr full p.length - 1
  · simp only [if_pos hlast, List.length_drop]
    rw [hlast]
  · simp only [if_neg hlast, List.length_take, List.length_drop]
    have hp0 : 0 < p.length := by
      by_contra h0
      have : pktNr full p.length = 1 := by
        unfold pktNr
        rw [if_pos (by omega)]
      omega
    have hbd := (pktNr_bounds hf hp0).1
    have hjB : (j + 1) * full ≤ (pktNr full p.length - 1) * full :=
      Nat.mul_le_mul_right full (by omega)
    rw [Nat.add_mul, Nat.one_mul] at hjB
    omega

/-- **A packet** takes the buffers after those received so far, and the warning of
`rcv_pkt` does not fire. -/
theorem FreeList.rcvPkt {d : Descq} {cmpl : CmplInfo} {p : List UInt8} {base pend : ℕ}
    {bufs new : List Buf} (hsz : RxSizes d) (h : d.FreeList base pend bufs)
    (hpidx : cmpl.pidx = bufs.length % d.conf.rngsz) (hlen : p.length ≤ 65535) {seq : ℕ}
    (hseq : ringIdxIncr d.cidxWrb 1 d.conf.rngszWrb = seq % d.conf.rngszWrb)
    (hnew : new = packetBufs d.conf.c2hBufsz seq p)
    (hroom : bufs.length + new.length < base + d.conf.rngsz)
    (hpage : ∀ j (hj : j < new.length), pageBytes
      (d.flq.sdesc ((bufs.length + j) % d.conf.rngsz)).page 0 new[j].bytes.length
        = new[j].bytes) :
    ∃ s x, rcvPkt d cmpl p.length =
        ((d.withBufs s x (d.avail - new.length)).withCounts
          (u32 (d.flq.pktDlen + p.length)) d.uddNext,
          cmpl.withPidx ((bufs.length + new.length) % d.conf.rngsz), 0) ∧
      (d.withBufs s x (d.avail - new.length)).FreeList base pend (bufs ++ new) ∧
      ∀ i, (s i).page = (d.flq.sdesc i).page ∧ (s i).offset = (d.flq.sdesc i).offset := by
  have hn := hsz.pos
  have hb := h.base_le
  have hp := h.pend_le
  have ha := h.avail_eq
  have hmax := hsz.le_max
  have hB : 0 < d.conf.c2hBufsz := by rw [hsz.bufsz]; exact Nat.two_pow_pos _
  have hnr : new.length = pktNr d.conf.c2hBufsz p.length := by rw [hnew, length_packetBufs hB]
  have hnr1 : 1 ≤ new.length := by rw [hnr]; exact pktNr_pos hB _
  have hclean : ∀ j < new.length,
      Clean d.conf.c2hBufsz (d.bufAt ((bufs.length + j) % d.conf.rngsz)) :=
    fun j hj => h.clean _ (Nat.le_add_right _ _) (by omega)
  -- a buffer that is not one of the packet's, counted from the packet's first
  have hout : ∀ j, base ≤ j → j < base + d.conf.rngsz →
      (j < bufs.length ∨ bufs.length + new.length ≤ j) → ∃ k, new.length ≤ k ∧
        k < d.conf.rngsz ∧ j % d.conf.rngsz = (bufs.length + k) % d.conf.rngsz := by
    intro j hj hjn hcase
    rcases hcase with h1 | h1
    · refine ⟨j + d.conf.rngsz - bufs.length, by omega, by omega, ?_⟩
      rw [Nat.add_sub_cancel' (by omega), Nat.add_mod_right]
    · exact ⟨j - bufs.length, by omega, by omega, by rw [Nat.add_sub_cancel' (by omega)]⟩
  refine ⟨_, _, rcvPkt_eq hsz hlen hpidx hnr (by omega) (by omega) (by omega) hclean, ?_, ?_⟩
  · refine FreeList.receive h hroom ?_ ?_
    · intro j hj hjn hcase
      obtain ⟨k, hk1, hk2, hk3⟩ := hout j hj hjn hcase
      rw [hk3]
      obtain ⟨h1, h2⟩ := keptInfo_old (P := bufs.length) (x := d.flq.sdescInfo)
        (c := ringIdxIncr d.cidxWrb 1 d.conf.rngszWrb) hnr1 hk1 hk2
      exact Prod.ext (Function.update_of_ne h1 _ _) h2
    · intro j hj
      obtain ⟨h1, h2, h3⟩ := keptInfo_new (P := bufs.length) (x := d.flq.sdescInfo)
        (c := ringIdxIncr d.cidxWrb 1 d.conf.rngszWrb) hn (show new.length ≤ d.conf.rngsz by omega)
        hj (hclean j hj).eop
      have hsj : lastSdesc d.flq.sdesc ((bufs.length + (new.length - 1)) % d.conf.rngsz)
          (p.length - (new.length - 1) * d.conf.c2hBufsz) ((bufs.length + j) % d.conf.rngsz)
          = { d.flq.sdesc ((bufs.length + j) % d.conf.rngsz) with
              len := new[j].bytes.length } := by
        have hblen : new[j].bytes.length = if j = new.length - 1 then
            p.length - (new.length - 1) * d.conf.c2hBufsz else d.conf.c2hBufsz := by
          rw [hnr]
          simp only [hnew]
          exact length_packetBuf hB p j _
        unfold lastSdesc
        by_cases hjl : j = new.length - 1
        · rw [hblen, if_pos hjl, ← hjl, Function.update_self]
        · have hne : (bufs.length + j) % d.conf.rngsz
              ≠ (bufs.length + (new.length - 1)) % d.conf.rngsz :=
            mod_ne_mod (by omega) (by omega)
          have hfull : (d.flq.sdesc ((bufs.length + j) % d.conf.rngsz)).len
              = d.conf.c2hBufsz := (hclean j hj).len
          rw [Function.update_of_ne hne, hblen, if_neg hjl, ← hfull]
      have hget : new[j].eop = decide (j = new.length - 1) ∧
          new[j].seq = seq := by
        rw [hnr]
        simp [hnew, packetBufs, getElem_cutBufs]
      have hoff : (d.flq.sdesc ((bufs.length + j) % d.conf.rngsz)).offset = 0 :=
        (hclean j hj).offset
      refine ⟨⟨h1, h3.trans hget.1.symm, h2.trans (by rw [hget.2, hseq]), ?_, ?_⟩, ?_⟩
      · show (lastSdesc _ _ _ _).offset + (lastSdesc _ _ _ _).len = _
        rw [hsj]
        show (d.flq.sdesc _).offset + _ = _
        rw [hoff, Nat.zero_add]
      · show pageBytes (lastSdesc _ _ _ _).page 0 _ = _
        rw [hsj]
        exact hpage j hj
      · show (lastSdesc _ _ _ _).offset = 0
        rw [hsj]
        exact hoff
  · intro i
    unfold lastSdesc
    by_cases hi : i = (bufs.length + (new.length - 1)) % d.conf.rngsz
    · rw [hi, Function.update_self]
      exact ⟨rfl, rfl⟩
    · rw [Function.update_of_ne hi]
      exact ⟨rfl, rfl⟩

/-! ## Reading -/

/-- `cidx_wrb_pend`, uncounted, once the buffers `bs` are read to their end. -/
def lastSeq (c : ℕ) (bs : List Buf) : ℕ := bs.foldl (fun c b => if b.eop then b.seq else c) c

@[simp] theorem lastSeq_nil (c : ℕ) : lastSeq c [] = c := rfl

theorem lastSeq_cons (c : ℕ) (b : Buf) (bs : List Buf) :
    lastSeq c (b :: bs) = lastSeq (if b.eop then b.seq else c) bs := rfl

theorem lastSeq_append (c : ℕ) (bs cs : List Buf) :
    lastSeq c (bs ++ cs) = lastSeq (lastSeq c bs) cs := List.foldl_append

/-- It is the number of one of the buffers, or nothing has been read. -/
theorem lastSeq_mem (c : ℕ) (bs : List Buf) :
    lastSeq c bs = c ∨ ∃ b ∈ bs, b.seq = lastSeq c bs := by
  induction bs generalizing c with
  | nil => exact .inl rfl
  | cons b bs ih =>
      rw [lastSeq_cons]
      rcases ih (if b.eop then b.seq else c) with h | ⟨b', hb', h⟩
      · rw [h]
        split_ifs
        · exact .inr ⟨b, List.mem_cons_self, rfl⟩
        · exact .inl rfl
      · exact .inr ⟨b', List.mem_cons_of_mem _ hb', h⟩

/-- A page read from its start. -/
theorem pageBytes_take (page : ℕ → UInt8) {p len : ℕ} (h : p ≤ len) :
    pageBytes page 0 p = (pageBytes page 0 len).take p := by
  unfold pageBytes
  rw [← List.map_take, List.take_range, Nat.min_eq_left h]

section Unread

variable {nw : ℕ} {xs : List RxBuf} {bs : List Buf}

/-- The length left in a whole unread buffer is that of its content. -/
theorem map_len_of_whole (h : List.Forall₂ (Holds nw) xs bs) (h0 : ∀ x ∈ xs, x.1.offset = 0) :
    xs.map (·.1.len) = bs.map (·.bytes.length) := by
  induction h with
  | nil => rfl
  | @cons x b xs bs hx _ ih =>
      have hlen := hx.len
      rw [h0 x List.mem_cons_self, Nat.zero_add] at hlen
      rw [List.map_cons, List.map_cons, hlen, ih (fun y hy => h0 y (List.mem_cons_of_mem _ hy))]

/-- Whole unread buffers account for all their bytes. -/
theorem sum_len_of_whole (h : List.Forall₂ (Holds nw) xs bs) (h0 : ∀ x ∈ xs, x.1.offset = 0) :
    (xs.map (·.1.len)).sum = (bs.map (·.bytes.length)).sum ∧
      xs.flatMap bufBytes = bs.flatMap Buf.bytes := by
  refine ⟨by rw [map_len_of_whole h h0], ?_⟩
  induction h with
  | nil => rfl
  | @cons x b xs bs hx _ ih =>
      have hlen := hx.len
      rw [h0 x List.mem_cons_self, Nat.zero_add] at hlen
      rw [List.flatMap_cons, List.flatMap_cons, bufBytes, hlen, hx.page,
        ih (fun y hy => h0 y (List.mem_cons_of_mem _ hy))]

/-- Unread buffers of which only the first may be read in part. -/
theorem sum_len_add_offset {x : RxBuf} {b : Buf} (h : List.Forall₂ (Holds nw) (x :: xs) (b :: bs))
    (h0 : ∀ y ∈ xs, y.1.offset = 0) :
    ((x :: xs).map (·.1.len)).sum + x.1.offset = ((b :: bs).map (·.bytes.length)).sum := by
  obtain ⟨hx, hxs⟩ := List.forall₂_cons.mp h
  have hlen := hx.len
  have hrest := (sum_len_of_whole hxs h0).1
  rw [List.map_cons, List.sum_cons, List.map_cons, List.sum_cons, hrest]
  omega

/-- `cidx_wrb_pend` follows the completion entries of the buffers passed. -/
theorem foldl_passBuf (h : List.Forall₂ (Holds nw) xs bs) (c : ℕ) :
    xs.foldl passBuf (c % nw) = lastSeq c bs % nw := by
  induction h generalizing c with
  | nil => rfl
  | @cons x b xs bs hx _ ih =>
      rw [List.foldl_cons, lastSeq_cons, ← ih, passBuf, hx.eop, hx.cidx]
      split_ifs <;> rfl

end Unread

/-- The unread buffers, in ring order. -/
def unreadBufs (n : ℕ) (buf : ℕ → RxBuf) (pend P : ℕ) : List RxBuf :=
  (List.range (P - pend)).map (fun j => buf ((pend + j) % n))

theorem FreeList.unread {n nw full : ℕ} {buf : ℕ → RxBuf} {avail base pend : ℕ}
    {bufs : List Buf} (h : FreeList n nw full buf avail base pend bufs) :
    List.Forall₂ (Holds nw) (unreadBufs n buf pend bufs.length) (bufs.drop pend) ∧
      ∀ x ∈ (unreadBufs n buf pend bufs.length).tail, x.1.offset = 0 := by
  constructor
  · rw [List.forall₂_iff_get]
    refine ⟨by simp [unreadBufs], fun j h1 h2 => ?_⟩
    rw [List.length_drop] at h2
    have := h.holds (pend + j) (by omega) (by omega)
    simpa [unreadBufs] using this
  · intro x hx
    unfold unreadBufs at hx
    rw [← List.map_tail, List.mem_map] at hx
    obtain ⟨j, hj, rfl⟩ := hx
    obtain ⟨i, hi, hij⟩ := List.mem_iff_getElem.mp hj
    rw [List.length_tail, List.length_range] at hi
    rw [List.getElem_tail, List.getElem_range] at hij
    exact h.whole (pend + j) (by omega) (by omega)

end Qdma
