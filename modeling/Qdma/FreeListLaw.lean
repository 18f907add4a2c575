/-
# The free-list law of an ST C2H queue

The receive side of a queue that was started and then run with its device and its
callers in any order: `free_list_law` states the law in the queue's own fields, without
the counts `RxInv` works with.
-/
import Qdma.StartC2h
import Qdma.C2hRun
import Qdma.RingRun

namespace Qdma

open RingIndex Exec

/-! ## The queue just started -/

/-- `fls` of a power of two. -/
theorem fls_two_pow (k : ℕ) : fls (2 ^ k) = k + 1 := by
  unfold fls
  rw [if_neg (Nat.two_pow_pos k).ne', Nat.log2_two_pow]

/-- Receive buffers of a power of two of at least a page are used in full. -/
theorem fullLen_fresh (q : Flq) (n : ℕ) (sdesc : ℕ → FlSdesc) {k : ℕ} (hk : pageShift ≤ k)
    (hk' : k ≤ 31) :
    (q.fresh n (2 ^ k) sdesc).pgShift = k ∧ (q.fresh n (2 ^ k) sdesc).fullLen = 2 ^ k := by
  have h12 : pageShift = 12 := rfl
  have hshift : (fls (2 ^ k) + 255) % 256 = k := by
    rw [fls_two_pow, show k + 1 + 255 = k + 256 from by omega, Nat.add_mod_right]
    exact Nat.mod_eq_of_lt (by omega)
  refine ⟨hshift, ?_⟩
  show u32 (pageSize <<< (((fls (2 ^ k) + 255) % 256 + 256 - pageShift) % 256)) = 2 ^ k
  rw [hshift, show (k + 256 - pageShift) % 256 = k - 12 from by omega, Nat.shiftLeft_eq,
    show pageSize = 2 ^ 12 from rfl, ← Nat.pow_add, Nat.add_sub_cancel' (by omega)]
  exact u32_of_lt (Nat.pow_lt_pow_right (by decide) (by omega))

/-- An ST C2H queue without packet handler that has just been started for the first time,
on a ring of 2 to 65536 entries with buffers of a power of two of at least a page. -/
def StartedRx (q : Descq) : Prop :=
  ∃ (d : Descq) (env : StartEnv) (csr : GlobalCsrConf) (k : ℕ), env.csr = some csr ∧
    2 ≤ csr.ringSz d.conf.descRngSzIdx ∧ csr.ringSz d.conf.descRngSzIdx ≤ 65536 ∧
    csr.c2hBufSz d.conf.c2hBufSzIdx = 2 ^ k ∧ pageShift ≤ k ∧ k ≤ 31 ∧
    (d.conf.st && d.conf.c2h) = true ∧ d.conf.fpDescqC2hPacket = none ∧
    d.flq = {} ∧ d.pendList = [] ∧ d.copied = [] ∧ d.warned = false ∧
    (descqStart d env).2 = 0 ∧ q = (descqStart d env).1

/-- A queue just started has received nothing. -/
theorem StartedRx.rxInv {q : Descq} (h : StartedRx q) : RxInv { q := q } 0 0 := by
  obtain ⟨d, env, csr, k, hcsr, hlo, hhi, hbuf, hk, hk', hkind, hnone, hflq, _, _, hwarned, hok,
    rfl⟩ := h
  obtain ⟨slot, sdesc, intrId, heq, hfill⟩ := startC2h_eq hcsr hkind hok
  rw [heq]
  set n := u32Sub (csr.ringSz d.conf.descRngSzIdx) 1 with hn
  have hn' : n = csr.ringSz d.conf.descRngSzIdx - 1 := u32Sub_of_le (by omega) (by omega)
  have hav : u32Sub n 1 = n - 1 := u32Sub_of_le (by omega) (by omega)
  set q : Descq := { ((startConf d csr).withRings slot sdesc).up with intrId := intrId } with hq
  have hrng : q.conf.rngsz = n := rfl
  have hrngw : q.conf.rngszWrb = n := rfl
  have hB : q.conf.c2hBufsz = 2 ^ k := hbuf
  have hf := fullLen_fresh (startConf d csr).flq n sdesc hk hk'
  rw [← hbuf] at hf
  have hsz : RxSizes q :=
    ⟨by omega, by omega, rfl, hf.1.le.trans hk', by
      rw [hB]; exact congrArg _ hf.1.symm, hf.2, hnone⟩
  -- every slot of a new ring is empty
  have hclean : ∀ j, Clean q.conf.c2hBufsz (q.bufAt (j % n)) := by
    intro j
    have hj := hfill (j % n)
    rw [if_pos ⟨Nat.zero_le _, Nat.mod_lt _ (by omega)⟩] at hj
    exact ⟨rfl, rfl, rfl, hj.1.trans hf.2, hj.2⟩
  have hfl : q.FreeList 0 0 [] :=
    ⟨le_rfl, le_rfl, by show 0 < 0 + n; omega, hav, nofun, nofun, fun j _ _ => hclean j⟩
  have hoff : (q.flq.sdesc (0 % n)).offset = 0 := (hclean 0).offset
  have hpend : q.flq.pidxPend = 0 := by
    show d.flq.pidxPend = 0
    rw [hflq]
  have hdlen : q.flq.pktDlen = 0 := by
    show d.flq.pktDlen = 0
    rw [hflq]
  have hrx : Receiving q 0 0 [] := by
    refine ⟨hsz, hfl, ?_, ?_, ?_, nofun, hwarned⟩
    · rw [hpend, Nat.zero_mod]
    · rw [hrng, hoff, hdlen]
      rfl
    · show 0 = 0 % n
      rw [Nat.zero_mod]
  -- the completion ring is empty, and the colour that of the first lap
  have hring : CmplRing q [] 0 :=
    ⟨by omega, by omega, (Nat.zero_mod _).symm, by rw [Nat.zero_mod, Nat.zero_mul]; rfl,
      by simp [lap, q, Descq.up, Descq.withRings], le_rfl, nofun, nofun⟩
  refine ⟨⟨hrx, hring, nofun, by show 0 < 0 + n; omega⟩, (Nat.zero_mod _).symm, ?_, ?_,
    (Nat.zero_mod _).symm, (Nat.zero_mod _).symm, by simp [lap],
    ⟨0, (Nat.zero_mod _).symm, le_rfl, le_rfl⟩, ⟨0, (Nat.zero_mod _).symm, le_rfl, ?_⟩⟩
  · show u32Sub n 1 = (0 + n - 1) % n
    rw [hav, Nat.zero_add, Nat.mod_eq_of_lt (by omega)]
  · show 0 < 8 <<< _
    rw [Nat.shiftLeft_eq]
    exact Nat.mul_pos (by decide) (Nat.two_pow_pos _)
  · show 0 < 0 + n
    omega

/-- Starting a queue touches neither its requests nor what was copied. -/
theorem StartedRx.unused {q : Descq} (h : StartedRx q) : q.pendList = [] ∧ q.copied = [] := by
  obtain ⟨d, env, csr, k, hcsr, _, _, _, _, _, hkind, _, _, hpend, hcopied, _, hok, rfl⟩ := h
  obtain ⟨slot, sdesc, intrId, heq, _⟩ := startC2h_eq hcsr hkind hok
  rw [heq]
  exact ⟨hpend, hcopied⟩

/-! ## Completely read packets -/

/-- Entry `k` of the first `r` reports a packet whose buffers are among the first `pend`. -/
def PacketReadAt (full : ℕ) (sent : List Cmpl) (r pend k : ℕ) : Prop :=
  ∃ h : k < sent.length, k < r ∧ sent[k].word.testBit 3 = true ∧
    (allBufs full (sent.take (k + 1))).length ≤ pend

/-- `K` is the number of entries up to that of the last completely read packet. -/
def LastRead (full : ℕ) (sent : List Cmpl) (r pend K : ℕ) : Prop :=
  (∀ k, PacketReadAt full sent r pend k → k < K) ∧
    (K = 0 ∨ PacketReadAt full sent r pend (K - 1))

theorem PacketReadAt.lt {full r pend k : ℕ} {sent : List Cmpl}
    (h : PacketReadAt full sent r pend k) : k < r := by
  obtain ⟨-, hk, -⟩ := h
  exact hk

/-- More entries and more buffers. -/
theorem PacketReadAt.mono {full r r' pend pend' k : ℕ} {sent : List Cmpl}
    (h : PacketReadAt full sent r pend k) (hr : r ≤ r') (hp : pend ≤ pend') :
    PacketReadAt full sent r' pend' k := by
  obtain ⟨hk, hkr, hused, hle⟩ := h
  exact ⟨hk, by omega, hused, hle.trans hp⟩

/-- A packet that is read is not the last one as long as that is not read. -/
theorem PacketReadAt.pred {full r pend k : ℕ} {sent : List Cmpl}
    (h : PacketReadAt full sent (r + 1) pend k) (hr : r < sent.length)
    (hlast : sent[r].word.testBit 3 = true → pend < (allBufs full (sent.take (r + 1))).length) :
    PacketReadAt full sent r (min pend (allBufs full (sent.take r)).length) k := by
  obtain ⟨hk, hkr, hused, hle⟩ := h
  have hne : k ≠ r := by
    rintro rfl
    have := hlast hused
    omega
  have hpre := allBufs_isPrefix full (sent.take r) (k + 1)
  rw [List.take_take, Nat.min_eq_left (by omega)] at hpre
  exact ⟨hk, by omega, hused, le_min hle hpre.length_le⟩

/-- Passing all buffers of a packet, and no fewer, moves on to its entry. -/
theorem lastSeq_take_cutBufs (full seq m : ℕ) (p : List UInt8) (c t : ℕ) :
    lastSeq c ((cutBufs full seq m p).take t) = if m < t then seq else c := by
  induction m generalizing p t with
  | zero => cases t <;> simp [cutBufs, lastSeq]
  | succ m ih =>
      cases t with
      | zero => simp
      | succ t =>
          rw [cutBufs, List.take_succ_cons, lastSeq_cons]
          simpa using ih (p.drop full) t

/-- `cidx_wrb_pend`, uncounted, is that of the last completely read packet. -/
theorem lastRead_lastSeq {full : ℕ} {sent : List Cmpl}
    (hseq : ∀ k (h : k < sent.length), sent[k].seq = k + 1) {r pend : ℕ} (hr : r ≤ sent.length)
    (hp : pend ≤ (allBufs full (sent.take r)).length) :
    LastRead full sent r pend (lastSeq 0 ((allBufs full (sent.take r)).take pend)) := by
  induction r generalizing pend with
  | zero =>
      refine ⟨fun k hk => absurd hk.lt (Nat.not_lt_zero k), .inl ?_⟩
      simp [allBufs]
  | succ r ih =>
      have hrlt : r < sent.length := hr
      have hsucc := allBufs_take_succ full hrlt
      set bufs := allBufs full (sent.take r) with hbufs
      set new := sent[r].bufs full with hnew
      have hlen : (allBufs full (sent.take (r + 1))).length = bufs.length + new.length := by
        rw [hsucc, List.length_append]
      have hpacket : sent[r].word.testBit 3 = true →
          new = cutBufs full (r + 1) (new.length - 1) sent[r].payload ∧ 0 < new.length := by
        intro hused
        rw [hnew, Cmpl.bufs, if_pos hused, packetBufs, hseq r hrlt, length_cutBufs]
        exact ⟨rfl, Nat.succ_pos _⟩
      rcases Nat.lt_or_ge bufs.length pend with hgt | hle
      · have hused : sent[r].word.testBit 3 = true := by
          by_contra hno
          have : new = [] := by rw [hnew, Cmpl.bufs, if_neg hno]
          rw [this] at hlen
          simp only [List.length_nil] at hlen
          omega
        obtain ⟨hcut, hpos⟩ := hpacket hused
        rw [hsucc, List.take_append, List.take_of_length_le hgt.le, lastSeq_append, hcut,
          lastSeq_take_cutBufs]
        split_ifs with hall
        · -- the last packet is read
          refine ⟨fun k hk => hk.lt, .inr ⟨hrlt, Nat.lt_succ_self r, hused, ?_⟩⟩
          show (allBufs full (sent.take (r + 1))).length ≤ pend
          omega
        · obtain ⟨h1, h2⟩ := ih (by omega) (le_refl bufs.length)
          rw [List.take_length] at h1 h2
          refine ⟨fun k hk => h1 k ?_, h2.imp_right (fun h => h.mono (by omega) hgt.le)⟩
          have := hk.pred hrlt (fun _ => by omega)
          rwa [Nat.min_eq_right hgt.le] at this
      · obtain ⟨h1, h2⟩ := ih (by omega) hle
        rw [hsucc, List.take_append_of_le_length hle]
        refine ⟨fun k hk => h1 k ?_, h2.imp_right (fun h => h.mono (by omega) le_rfl)⟩
        have := hk.pred hrlt (fun hused => by have := (hpacket hused).2; omega)
        rwa [Nat.min_eq_left hle] at this

/-! ## The law -/

/-- How many entries the driver has gone through. -/
def Rx.gone (s : Rx) : ℕ :=
  s.sent.length - dist s.q.conf.rngszWrb s.q.cidxWrb s.wrbPidx

/-- How many of the buffers received are no longer between `pidx_pend` and `pidx`. -/
def Rx.readBufs (s : Rx) : ℕ :=
  (allBufs s.q.conf.c2hBufsz (s.sent.take s.gone)).length
    - dist s.q.conf.rngsz s.q.flq.pidxPend s.q.pidx

/-- Slot `i` lies between `pidx_pend` and `pidx`. -/
def Descq.Unread (q : Descq) (i : ℕ) : Prop :=
  dist q.conf.rngsz q.flq.pidxPend i < dist q.conf.rngsz q.flq.pidxPend q.pidx

/-- Slot `i` lies between `pidx` and the last doorbell. -/
def Descq.Exposed (q : Descq) (i : ℕ) : Prop :=
  dist q.conf.rngsz q.pidx i < dist q.conf.rngsz q.pidx q.regs.pidx

/-- The free-list law, in the fields of the queue. -/
structure FreeListLaw (s : Rx) : Prop where
  avail : s.q.avail + (s.q.pidx + s.q.conf.rngsz - s.q.flq.pidxPend) % s.q.conf.rngsz
    = s.q.conf.rngsz - 1
  valid : ∀ i < s.q.conf.rngsz, (s.q.flq.sdescInfo i).valid = true ↔ s.q.Unread i
  clean : ∀ i < s.q.conf.rngsz, ¬ s.q.Unread i → Clean s.q.conf.c2hBufsz (s.q.bufAt i)
  warned : s.q.warned = false
  pktDlen : s.q.flq.pktDlen = (stretch s.q.conf.rngsz (fun i => (s.q.flq.sdesc i).len)
    s.q.flq.pidxPend s.q.pidx).sum
  bell : adv s.q.conf.rngsz s.q.regs.pidx 1 = s.q.flq.pidxPend
  exposed : ∀ i < s.q.conf.rngsz, s.q.Exposed i → (s.q.flq.sdescInfo i).valid = false
  cidxWrbPend : ∃ K, s.q.cidxWrbPend = K % s.q.conf.rngszWrb ∧
    LastRead s.q.conf.c2hBufsz s.sent s.gone s.readBufs K

/-- The counts of the invariant are those the fields give. -/
theorem RxInv.counts {s : Rx} {r pend : ℕ} (h : RxInv s r pend) :
    s.gone = r ∧ s.readBufs = pend := by
  have hlap := h.lt_lap
  have hr := h.serving.ring.le
  have hgone : s.gone = r := by
    unfold Rx.gone
    rw [h.serving.ring.cidx, h.wrbPidx, dist_mod hr hlap]
    omega
  refine ⟨hgone, ?_⟩
  have hp := h.serving.rx.fl.pend_le
  have hl := h.serving.rx.fl.lt
  unfold Rx.readBufs
  rw [hgone, h.serving.rx.pidxPend, h.pidx, dist_mod hp hl]
  omega

/-- Which slots are unread, counted. -/
theorem RxInv.unread_iff {s : Rx} {r pend : ℕ} (h : RxInv s r pend) {j : ℕ} (hj : pend ≤ j)
    (hjn : j < pend + s.q.conf.rngsz) : s.q.Unread (j % s.q.conf.rngsz) ↔
      j < (allBufs s.q.conf.c2hBufsz (s.sent.take r)).length := by
  have hp := h.serving.rx.fl.pend_le
  have hl := h.serving.rx.fl.lt
  unfold Descq.Unread
  rw [h.serving.rx.pidxPend, h.pidx, dist_mod hp hl, dist_mod hj hjn]
  omega

/-- The invariant is the law. -/
theorem RxInv.law {s : Rx} {r pend : ℕ} (h : RxInv s r pend) : FreeListLaw s := by
  obtain ⟨hgone, hread⟩ := h.counts
  have hn := h.serving.rx.sizes.pos
  have hp := h.serving.rx.fl.pend_le
  have hl := h.serving.rx.fl.lt
  have hpp := h.serving.rx.pidxPend
  have hunread := fun {j} => h.unread_iff (j := j)
  set P := (allBufs s.q.conf.c2hBufsz (s.sent.take r)).length with hP
  set n := s.q.conf.rngsz with hnn
  -- a slot is valid exactly between the one to read and the one to fill
  have hvalid : ∀ i < n, (s.q.flq.sdescInfo i).valid = true ↔ s.q.Unread i := by
    intro i hi
    obtain ⟨j, hj, hjn, rfl⟩ := exists_mod_eq pend hi
    rw [hunread hj hjn]
    rcases Nat.lt_or_ge j P with hlt | hge
    · exact ⟨fun _ => hlt, fun _ => (h.serving.rx.fl.holds j hlt hj).valid⟩
    · refine ⟨fun hv => ?_, fun hlt => by omega⟩
      exact absurd ((h.serving.rx.fl.clean j hge hjn).valid.symm.trans hv) (by decide)
  refine ⟨?_, hvalid, ?_, h.serving.rx.warned, ?_, ?_, ?_, ?_⟩
  · have hav := h.serving.rx.fl.avail_eq
    have hd : (s.q.pidx + n - s.q.flq.pidxPend) % n = P - pend := by
      rw [hpp, h.pidx]
      exact dist_mod hp hl
    rw [hd]
    exact hav
  · intro i hi hnot
    obtain ⟨j, hj, hjn, rfl⟩ := exists_mod_eq pend hi
    rw [hunread hj hjn] at hnot
    exact h.serving.rx.fl.clean j (by omega) hjn
  · rw [h.serving.rx.dlen_eq, hpp, h.pidx, stretch_mod _ hp hl]
    unfold unreadBufs
    rw [List.map_map]
    rfl
  · rw [h.bell, adv_mod, hpp, show pend + n - 1 + 1 = pend + n from by omega, Nat.add_mod_right]
  · intro i hi hexp
    obtain ⟨j, hj, hjn, rfl⟩ := exists_mod_eq P hi
    unfold Descq.Exposed at hexp
    rw [h.pidx, h.bell, dist_mod hj hjn, dist_mod (by omega) (by omega)] at hexp
    exact (h.serving.rx.fl.clean j hj (by omega)).valid
  · refine ⟨_, h.serving.rx.last, ?_⟩
    rw [hgone, hread]
    exact lastRead_lastSeq h.serving.ring.seq h.serving.ring.le hp

/-- **The free-list law.**  It holds after every run of a queue that was started. -/
theorem free_list_law {q : Descq} (h : StartedRx q) {evs : List RxLabel} {s : Rx}
    (hrun : Run Rx.step RxLegal { q := q } evs s) : FreeListLaw s := by
  obtain ⟨r, pend, hinv⟩ := rxInv_run h.rxInv hrun
  exact hinv.law

/-! ## A concrete run -/

/-- A card-to-host queue as `qdma_queue_add` leaves it. -/
def addedC2h : Descq := { enabled := true, conf := { st := true, c2h := true } }

/-- The same queue just started on a ring of CSR size 4, with buffers of a page. -/
def startedRx : Rx := { q := (descqStart addedC2h (goodStart (csrOf 4))).1 }

theorem startedRx_started : StartedRx startedRx.q :=
  ⟨addedC2h, goodStart (csrOf 4), csrOf 4, 12, rfl, by decide, by decide, by decide, by decide,
    by decide, rfl, rfl, rfl, rfl, rfl, rfl, by decide +kernel, rfl⟩

/-- The first word of a completion entry for a packet of `len` bytes. -/
def cmplWord (color : Bool) (len : ℕ) : ℕ := 8 + (if color then 2 else 0) + 16 * len

/-- A read into one page. -/
def readReq (len : UInt32) : Request :=
  { write := false, count := len.toNat, epAddr := 0, dmaMapped := true, fpDone := false
    sgl := [⟨1, 0, len.toNat, 4096⟩], count_lt := len.toNat_lt
    sgcnt_lt := Nat.one_lt_two_pow (by decide) }

/-- A packet of 10 bytes arrives for a read of 4. -/
theorem free_list_law_partway :
    let s := [RxLabel.submit (readReq 4), .pend 0,
      .dma (cmplWord true 10) (List.replicate 10 7), .publish 1,
      .service 8 (fun _ => .noMem)].foldl Rx.step startedRx
    s.q.flq.pktDlen = 6 ∧ s.q.cidxWrbPend = 0 ∧ FreeListLaw s :=
  ⟨by decide +kernel, by decide +kernel,
    free_list_law startedRx_started (Run.of_admits _ (by decide +kernel))⟩

end Qdma
