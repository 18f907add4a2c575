/-
# Dumps and their buffers

What a dump may do: read slots, free-list entries and pages that are there, write into its buffer,
and return how much text that is, or an error.

`dump_safe_iff` says when it does: when its text fits, when its range begins in the ring, and for a
receive queue when the range ends in front of the last slot, since the data of the slot behind it is
dumped, too.  A dump of an interrupt ring returns 0 whatever it has written.
-/
import Qdma.Dumps

namespace Qdma

open TextOut

/-! ## The law -/

/-- What is read is there. -/
def Allocated : DumpRead → Prop
  | .desc q i => q.desc.isSome = true ∧ 0 ≤ i ∧ i < q.conf.rngsz
  | .descWb q => q.desc.isSome = true
  | .wrb q i => q.descWrb.isSome = true ∧ 0 ≤ i ∧ i < q.conf.rngszWrb
  | .wrbWb q => q.descWrb.isSome = true
  | .fl q i => 0 ≤ i ∧ i < q.flSize
  | .page pg => pg.isSome = true
  | .coal allocated => allocated = true
  | .intr e i => 0 ≤ i ∧ i < e.intrRngNumEntries
  | .beyond => False

/-- **A dump is safe** with a buffer of `buflen` bytes. -/
structure DumpResult.Safe (buflen : ℕ) (r : DumpResult) : Prop where
  reads : ∀ a ∈ r.reads, Allocated a
  writes : r.out.high ≤ buflen
  returns : r.rv < 0 ∨ r.rv = r.out.text.length

/-- The dumps, with their arguments. -/
inductive DumpCall where
  | desc (id : ℕ) (start stop : BitVec 32)
  | wrb (id : ℕ) (start stop : BitVec 32)
  | queue (id : ℕ)
  | intr (vectorIdx startIdx endIdx : BitVec 32)

/-- A dump. -/
def DumpCall.run (k : DumpEnv) (x : DumpDev) (buflen : ℕ) : DumpCall → DumpResult
  | .desc id start stop => qdmaQueueDumpDesc k x id start.toNat stop.toNat buflen
  | .wrb id start stop => qdmaQueueDumpWrb k x id start.toNat stop.toNat buflen
  | .queue id => qdmaQueueDump k x id buflen
  | .intr vectorIdx startIdx endIdx =>
      qdmaIntrRingDump x vectorIdx.toNat (toInt startIdx.toNat) (toInt endIdx.toNat) buflen

/-! ## When it is safe -/

/-- The characters of an `int`, of a number in hexadecimal and of one in decimal. -/
def intLen (i : ℤ) : ℕ := (fmtInt i).length

def hexLen (n : ℕ) : ℕ := (fmtHex n).length

def decLen (n : ℕ) : ℕ := (fmtDec n).length

/-- The characters of the state of a queue. -/
def stateLen (q : DumpQueue) : ℕ :=
  q.name.length + 5 +
    if q.err then 4 else if q.online then 7 else if q.inited then 3 else if q.enabled then 7 else 15

/-- The characters of `bytes` bytes of memory. -/
def memLen (bytes : ℕ) : ℕ := 9 * (bytes / 4) - 1

/-- The characters of a row. -/
def descRowLen (q : DumpQueue) (i : ℤ) : ℕ :=
  intLen i + 21 + memLen (getDescSize q.conf) +
    if q.hasFl then 31 + hexLen (q.flDmaAddr i) else 1

def wrbRowLen (q : DumpQueue) (i : ℤ) : ℕ := intLen i + 21 + memLen (min q.wbEntryLen 32) + 1

/-- **A dump of descriptors fits**: the state does; with a ring the rows, and what stands in front
of the last memory; the range begins in the ring; and the free list has a page where it ends. -/
def DescFits (q : DumpQueue) (start stop : ℤ) (buflen : ℕ) : Prop :=
  let rows := visited q.conf.rngsz (stop - start).toNat start
  let fl := start + rows.length
  stateLen q < buflen ∧
    (q.inited = true → q.desc.isSome = true →
      (rows = [] ∨ 0 ≤ start) ∧
        stateLen q + (rows.map (descRowLen q)).sum + (if q.hasFl then 69 else 24) ≤ buflen ∧
        (q.hasFl = true → 0 ≤ fl ∧ fl < q.flSize ∧ (q.flPg fl).isSome = true))

/-- **A dump of completions fits.** -/
def WrbFits (q : DumpQueue) (start stop : ℤ) (buflen : ℕ) : Prop :=
  let rows := visited q.conf.rngszWrb (stop - start).toNat start
  stateLen q < buflen ∧
    (q.inited = true → q.descWrb.isSome = true →
      (rows = [] ∨ 0 ≤ start) ∧
        stateLen q + (rows.map (wrbRowLen q)).sum + 24 ≤ buflen)

/-- The characters of `qdma_descq_dump`. -/
def detailsLen (q : DumpQueue) : ℕ :=
  46 + intLen (toInt q.qidxHw) + (q.wrkthp.getD ['?']).length + (q.wbthp.getD ['?']).length +
      hexLen q.descBus + decLen q.conf.rngsz +
    (if q.hasFl then 33 + hexLen q.descWrbBus + decLen q.conf.rngszWrb else 0) +
    (if q.desc.isSome then 44 else 0) + if q.descWrb.isSome then 47 else 0

def descqDumpLen (q : DumpQueue) : ℕ := stateLen q + if q.enabled then detailsLen q else 0

/-- The characters of the contexts of the interrupt rings. -/
def intrContextLen (k : DumpEnv) (x : DumpDev) (q : DumpQueue) : ℕ :=
  let e : VecEnv :=
    { funcId := x.funcId, descBus := 0, intrCoalEn := x.intrCoalEn,
      dvecStartIdx := x.dvecStartIdx }
  let ringIndex := getIntrRingIndex e (0 + x.dvecStartIdx)
  match k.intrContextRead ringIndex with
  | .inl rv => q.name.length + 28 + intLen rv
  | .inr _ => 93 + intLen (toInt ringIndex)

/-- The characters of the contexts of a queue. -/
def contextLen (k : DumpEnv) (x : DumpDev) (q : DumpQueue) : ℕ :=
  match k.contextRead with
  | .inl rv => q.name.length + 23 + intLen rv
  | .inr _ =>
      169 + (if q.conf.c2h && q.conf.st then 116 else 0) +
        if x.vf then 0 else intrContextLen k x q

/-- **A dump of a queue fits**: the contexts do, behind the rest, which is left out if it does
not. -/
def QueueFits (k : DumpEnv) (x : DumpDev) (q : DumpQueue) (buflen : ℕ) : Prop :=
  (if descqDumpLen q < buflen then descqDumpLen q else 0) + contextLen k x q + 1 ≤ buflen

/-- The queue of a handle, or the bytes of the message that there is none. -/
def lookup (x : DumpDev) (idx : ℕ) (init : Bool) : ℕ ⊕ DumpQueue :=
  match x.qmax with
  | none => .inl 0
  | some qmax =>
      if idx ≥ qmax ∧ idx - qmax ≥ qmax then
        .inl (x.name.length + 26 + hexLen (idx - qmax) + hexLen qmax)
      else
        let q := if idx ≥ qmax then x.c2hDescq (idx - qmax) else x.h2cDescq idx
        let idx := if idx ≥ qmax then idx - qmax else idx
        if init && !q.enabled then .inl (x.name.length + 47 + hexLen idx)
        else .inr q

/-- **A dump of an interrupt ring is safe** only when it is refused, and the message fits; where the
size of the ring is looked at, there has to be a list of rings. -/
def IntrFits (x : DumpDev) (vectorIdx : ℕ) (startIdx endIdx : ℤ) (buflen : ℕ) : Prop :=
  if !x.intrCoalEn then 34 ≤ buflen
  else if vectorIdx < x.dvecStartIdx ∨ vectorIdx ≥ x.dvecStartIdx + qdmaDataVecPerPfMax then
    50 + intLen (toInt vectorIdx) + decLen x.dvecStartIdx +
      decLen (x.dvecStartIdx + qdmaDataVecPerPfMax - 1) ≤ buflen
  else
    let n := (x.intrCoalList (vectorIdx - x.dvecStartIdx)).intrRngNumEntries
    x.intrCoalAlloc = true ∧
      if startIdx > n then 46 + intLen startIdx + decLen n ≤ buflen
      else
        (if startIdx = -1 then 0 else startIdx) >
            (if endIdx = -1 ∨ endIdx ≥ n then (n : ℤ) - 1 else endIdx) ∧
          42 ≤ buflen

/-- **When a dump is safe.** -/
def DumpCall.Fits (k : DumpEnv) (x : DumpDev) (buflen : ℕ) : DumpCall → Prop
  | .desc id start stop =>
      match lookup x id true with
      | .inl n => n ≤ buflen
      | .inr q => DescFits q (toInt start.toNat) (toInt stop.toNat) buflen
  | .wrb id start stop =>
      match lookup x id true with
      | .inl n => n ≤ buflen
      | .inr q => WrbFits q (toInt start.toNat) (toInt stop.toNat) buflen
  | .queue id =>
      match lookup x id false with
      | .inl n => n ≤ buflen
      | .inr q => QueueFits k x q buflen
  | .intr vectorIdx startIdx endIdx =>
      IntrFits x vectorIdx.toNat (toInt startIdx.toNat) (toInt endIdx.toNat) buflen

/-! ## The length of the texts -/

theorem length_fmtHexW (w n : ℕ) : (fmtHexW w n).length = w := by
  induction w generalizing n with
  | zero => rfl
  | succ w ih =>
      rw [fmtHexW, List.length_append, ih]
      rfl

theorem length_hexDump (ws : List ℕ) : (hexDump ws).length = 9 * ws.length - 1 := by
  induction ws with
  | nil => rfl
  | cons w ws ih =>
      cases ws with
      | nil => exact length_fmtHexW 8 w
      | cons w' ws =>
          rw [hexDump, List.length_append, List.length_cons, ih, length_fmtHexW]
          · simp only [List.length_cons]
            omega
          · exact nofun

theorem length_wordsOf (mem : ℕ → ℕ) (bytes : ℕ) :
    (hexDump (wordsOf mem bytes)).length = memLen bytes := by
  rw [length_hexDump]
  unfold wordsOf
  rw [List.length_map, List.length_range]
  rfl

section Texts

variable (k : DumpEnv) (q : DumpQueue)

theorem length_state :
    [q.name ++ ' ' :: (if q.conf.c2h then "C2H " else "H2C ").toList, stateWord q].flatten.length =
      stateLen q := by
  have hdir : (if q.conf.c2h then "C2H " else "H2C ").toList.length = 4 := by
    split_ifs <;> rfl
  have hword : (stateWord q).length = if q.err then 4 else if q.online then 7
      else if q.inited then 3 else if q.enabled then 7 else 15 := by
    unfold stateWord
    split_ifs <;> rfl
  simp only [List.flatten_cons, List.flatten_nil, List.length_append, List.length_cons,
    List.length_nil, hdir, hword]
  unfold stateLen
  omega

theorem length_descRow (base : ℕ) (i : ℤ) :
    (texts (descRow k q base i)).length = descRowLen q i := by
  have hmem : (hexDump (descWords q i)).length = memLen (getDescSize q.conf) :=
    length_wordsOf (q.descMem i) _
  have hhead : (fmtInt i ++ ": 0x".toList ++ k.ptr (slotAddr base i (getDescSize q.conf)) ++
      [' ']).length = intLen i + 21 := by
    simp only [List.length_append, k.length_ptr]
    rfl
  unfold descRow descRowLen
  by_cases hfl : q.hasFl = true
  · have htail : (" fl pg 0x".toList ++ k.ptr ((q.flPg i).getD 0) ++ ", 0x".toList ++
        fmtHex (q.flDmaAddr i) ++ ".\n".toList).length = 31 + hexLen (q.flDmaAddr i) := by
      simp only [List.length_append, k.length_ptr]
      show 9 + 16 + 4 + hexLen (q.flDmaAddr i) + 2 = _
      omega
    rw [if_pos hfl, if_pos hfl]
    simp only [texts_cons, texts_nil, Item.text, List.length_append, List.length_nil, hhead, hmem,
      htail]
    omega
  · rw [if_neg hfl, if_neg hfl]
    simp only [texts_cons, texts_nil, Item.text, List.length_append, List.length_cons,
      List.length_nil, hhead, hmem]
    omega

theorem length_wrbRow (base : ℕ) (i : ℤ) :
    (texts (wrbRow k q base i)).length = wrbRowLen q i := by
  have hmem := length_wordsOf (q.wrbMem i) (min q.wbEntryLen 32)
  have hhead : (fmtInt i ++ ": 0x".toList ++ k.ptr (slotAddr base i q.wbEntryLen) ++
      [' ']).length = intLen i + 21 := by
    simp only [List.length_append, k.length_ptr]
    rfl
  unfold wrbRow wrbRowLen
  simp only [texts_cons, texts_nil, Item.text, List.length_append, List.length_cons,
    List.length_nil, hhead, hmem]
  omega

theorem length_statusRow (a : ℕ) (mem : ℕ → ℕ) : (texts (statusRow k a mem)).length = 41 := by
  have hmem := length_wordsOf mem statusSize
  have hhead : ("WB: 0x".toList ++ k.ptr a ++ [' ']).length = 23 := by
    simp only [List.length_append, k.length_ptr]
    rfl
  unfold statusRow
  simp only [texts_cons, texts_nil, Item.text, List.length_append, List.length_cons,
    List.length_nil, hhead, hmem]
  rfl

/-- What is refused is a message. -/
theorem getDescqById_lookup (x : DumpDev) (idx : ℕ) (init : Bool) :
    match lookup x idx init with
    | .inl n => (getDescqById k x idx init).1 = none ∧ (getDescqById k x idx init).2.high = n
    | .inr q => (getDescqById k x idx init).1 = some q := by
  unfold lookup getDescqById
  cases x.qmax with
  | none => exact ⟨rfl, rfl⟩
  | some qmax =>
      simp only
      by_cases hbig : idx ≥ qmax ∧ idx - qmax ≥ qmax
      · rw [if_pos hbig, if_pos hbig]
        refine ⟨rfl, ?_⟩
        show max 0 (0 + (x.name ++ ", q idx too big 0x".toList ++ fmtHex (idx - qmax) ++
          " > 0x".toList ++ fmtHex qmax ++ ".\n".toList).length + 1) = _
        simp only [List.length_append]
        show max 0 (0 + (x.name.length + 18 + hexLen (idx - qmax) + 5 + hexLen qmax + 2) + 1) = _
        omega
      · rw [if_neg hbig, if_neg hbig]
        generalize (if idx ≥ qmax then x.c2hDescq (idx - qmax) else x.h2cDescq idx) = q
        generalize (if idx ≥ qmax then idx - qmax else idx) = j
        by_cases hinit : (init && !q.enabled) = true
        · rw [if_pos hinit, if_pos hinit]
          refine ⟨rfl, ?_⟩
          show max 0 (0 + (x.name ++ ", idx 0x".toList ++ fmtHex j ++ ", q 0x".toList ++
            k.ptr q.self ++ " state invalid.\n".toList).length + 1) = _
          simp only [List.length_append, k.length_ptr]
          show max 0 (0 + (x.name.length + 8 + hexLen j + 6 + 16 + 16) + 1) = _
          omega
        · rw [if_neg hinit, if_neg hinit]

end Texts

/-- Without reads there is only the text. -/
theorem DumpResult.safe_of_out {buflen : ℕ} {o : Out} {rv : ℤ} (hhigh : o.high ≤ buflen)
    (hrv : rv < 0 ∨ rv = o.text.length) : ({ out := o, rv := rv } : DumpResult).Safe buflen :=
  ⟨fun _ ha => absurd ha List.not_mem_nil, hhigh, hrv⟩

/-! ## The state -/

/-- The state of a queue is written, or nothing. -/
theorem dumpState_spec (q : DumpQueue) {buflen : ℕ} (hbuf : 0 < buflen) :
    (qdmaDescqDumpState q buflen).1.Level ∧ (qdmaDescqDumpState q buflen).1.high ≤ buflen ∧
      (stateLen q < buflen → (qdmaDescqDumpState q buflen).1.pos = stateLen q ∧
        (qdmaDescqDumpState q buflen).2 = stateLen q) ∧
      (buflen ≤ stateLen q → (qdmaDescqDumpState q buflen).1.pos = 0 ∧
        buflen ≤ (qdmaDescqDumpState q buflen).2) := by
  unfold qdmaDescqDumpState
  rw [if_neg hbuf.ne']
  have hspec := snprintfs_spec (o := {})
    [q.name ++ ' ' :: (if q.conf.c2h then "C2H " else "H2C ").toList, stateWord q]
    hbuf (Nat.zero_le buflen)
  rw [length_state, show ({} : Out).pos = 0 from rfl, Nat.zero_add] at hspec
  obtain ⟨hhigh, hin, hout⟩ := hspec
  refine ⟨?_, hhigh, fun h => ⟨(hin h).1, (hin h).2.2⟩, fun h => ⟨(hout h).1, (hout h).2.2⟩⟩
  unfold Out.Level
  rcases Nat.lt_or_ge (stateLen q) buflen with h | h
  · obtain ⟨hpos, htext, -⟩ := hin h
    rw [hpos, htext, show ({} : Out).text = [] from rfl, List.nil_append, length_state]
  · obtain ⟨hpos, htext, -⟩ := hout h
    rw [hpos, htext]
    rfl

/-- **Behind the state**: it has to fit, and what the dump of the ring does to be safe. -/
theorem dumpBehindState_safe_iff (k : DumpEnv) (q : DumpQueue) {buflen : ℕ} (hbuf : 0 < buflen)
    {dump : Out → Option (Out × List DumpRead)} {D : Prop}
    (hlevel : ∀ o r, dump o = some r → o.Level → r.1.Level)
    (hdump : ∀ o : Out, o.high ≤ buflen → o.pos = stateLen q →
      ((∀ r, dump o = some r → (∀ a ∈ r.2, Allocated a) ∧ r.1.high ≤ buflen) ↔ D)) :
    (dumpBehindState k q buflen dump).Safe buflen ↔
      stateLen q < buflen ∧ (q.inited = true → D) := by
  obtain ⟨hlev, hhigh, hin, hout⟩ := dumpState_spec q hbuf
  unfold dumpBehindState
  generalize qdmaDescqDumpState q buflen = r at hlev hhigh hin hout
  generalize stateLen q = len at hin hout hdump
  obtain ⟨o, n⟩ := r
  simp only at hlev hhigh hin hout ⊢
  rcases Nat.lt_or_ge len buflen with hfit | hfit
  · obtain ⟨hpos, rfl⟩ := hin hfit
    have htext : (n : ℤ) = o.text.length := by rw [← hlev, hpos]
    rw [and_iff_right hfit]
    cases hinit : q.inited with
    | false =>
        simp only [Bool.not_false, if_true]
        exact iff_of_true (DumpResult.safe_of_out hhigh (.inr htext))
          (fun h => absurd h (by decide))
    | true =>
        have hiff := hdump o hhigh hpos
        simp only [Bool.not_true, Bool.false_eq_true, if_false, forall_const, if_pos hfit]
        rw [← hiff]
        cases hd : dump o with
        | none =>
            exact iff_of_true (DumpResult.safe_of_out hhigh (.inr htext)) (fun r hr => nomatch hr)
        | some r =>
            constructor
            · rintro h r' hr'
              obtain rfl := Option.some.inj hr'
              exact ⟨h.reads, h.writes⟩
            · intro h
              obtain ⟨hreads, hwrites⟩ := h r rfl
              have hend : r.1.pos = r.1.text.length := hlevel o r hd hlev
              exact ⟨hreads, hwrites, .inr (by simp only [hend])⟩
  · -- the text has been given up, and what is returned is more than the buffer
    obtain ⟨hpos, hn⟩ := hout hfit
    refine iff_of_false (fun h => ?_) (fun h => absurd h.1 (Nat.not_lt.mpr hfit))
    cases hinit : q.inited with
    | false =>
        rw [hinit] at h
        have hlen : o.text.length = 0 := by rw [← hlev, hpos]
        rcases h.returns with hneg | heq
        · replace hneg : (n : ℤ) < 0 := hneg
          omega
        · replace heq : (n : ℤ) = o.text.length := heq
          omega
    | true =>
        simp only [hinit, Bool.not_true, Bool.false_eq_true, if_false,
          if_neg (Nat.not_lt.mpr hn)] at h
        cases hd : dump { o with pos := n + k.beyond } with
        | none =>
            rw [hd] at h
            exact h.reads .beyond List.mem_cons_self
        | some r =>
            rw [hd] at h
            exact h.reads .beyond List.mem_cons_self

/-! ## Rings -/

/-- The slots lie behind the first one, -/
theorem mem_visited {rngsz n : ℕ} {start i : ℤ} (h : i ∈ visited rngsz n start) :
    start ≤ i ∧ i < start + (visited rngsz n start).length ∧ (i % 2 ^ 32).toNat < rngsz := by
  induction n generalizing start with
  | zero => exact absurd h List.not_mem_nil
  | succ n ih =>
      rw [visited] at h ⊢
      by_cases hlt : (start % 2 ^ 32).toNat < rngsz
      · rw [if_pos hlt] at h ⊢
        rw [List.length_cons]
        push_cast
        rcases List.mem_cons.mp h with rfl | hmem
        · exact ⟨le_refl _, by omega, hlt⟩
        · obtain ⟨hle, hend, hi⟩ := ih hmem
          exact ⟨by omega, by omega, hi⟩
      · rw [if_neg hlt] at h
        exact absurd h List.not_mem_nil

/-- and in front of the end. -/
theorem length_visited (rngsz n : ℕ) (start : ℤ) : (visited rngsz n start).length ≤ n := by
  induction n generalizing start with
  | zero => exact le_refl 0
  | succ n ih =>
      rw [visited]
      split_ifs
      · exact Nat.succ_le_succ (ih _)
      · exact Nat.zero_le _

/-- The first slot is visited if any is. -/
theorem start_visited {rngsz n : ℕ} {start : ℤ} (h : visited rngsz n start ≠ []) :
    start ∈ visited rngsz n start := by
  cases n with
  | zero => exact absurd rfl h
  | succ n =>
      rw [visited] at h ⊢
      by_cases hlt : (start % 2 ^ 32).toNat < rngsz
      · rw [if_pos hlt]
        exact List.mem_cons_self
      · rw [if_neg hlt] at h
        exact absurd rfl h

/-- **The slots are there** just when the range does not begin in front of the ring. -/
theorem visited_allocated {rngsz : ℕ} {start stop : ℤ} (hstop : stop < 2 ^ 31) :
    (∀ i ∈ visited rngsz (stop - start).toNat start, 0 ≤ i ∧ i < rngsz) ↔
      visited rngsz (stop - start).toNat start = [] ∨ 0 ≤ start := by
  constructor
  · intro h
    by_cases hnil : visited rngsz (stop - start).toNat start = []
    · exact .inl hnil
    · exact .inr (h start (start_visited hnil)).1
  · rintro (hnil | hstart) i hi
    · rw [hnil] at hi
      exact absurd hi List.not_mem_nil
    · obtain ⟨hle, hlt, hmod⟩ := mem_visited hi
      have hlen := length_visited rngsz (stop - start).toNat start
      have hlow : i % 2 ^ 32 = i := Int.emod_eq_of_lt (by omega) (by omega)
      rw [hlow] at hmod
      omega

section Rings

variable {k : DumpEnv} {q : DumpQueue} {start stop : ℤ} {buflen : ℕ} {o : Out}

/-- The only result. -/
theorem forall_some {α : Type} {P : α → Prop} (a : α) : (∀ r, some a = some r → P r) ↔ P a :=
  ⟨fun h => h a rfl, fun h _ hr => Option.some.inj hr ▸ h⟩

theorem descDump_level {r : Out × List DumpRead}
    (h : qdmaDescqDumpDesc k q start stop buflen o = some r) (hlevel : o.Level) : r.1.Level := by
  unfold qdmaDescqDumpDesc at h
  cases hd : q.desc with
  | none =>
      rw [hd] at h
      exact nomatch h
  | some base =>
      rw [hd] at h
      simp only at h
      split_ifs at h
      · rw [← Option.some.inj h]
        exact hlevel.run _
      · rw [← Option.some.inj h]
        exact hlevel.run _

theorem wrbDump_level {r : Out × List DumpRead}
    (h : qdmaDescqDumpWrb k q start stop buflen o = some r) (hlevel : o.Level) : r.1.Level := by
  unfold qdmaDescqDumpWrb at h
  cases hd : q.descWrb with
  | none =>
      rw [hd] at h
      exact nomatch h
  | some base =>
      rw [hd] at h
      rw [← Option.some.inj h]
      exact hlevel.run _

/-- The status ends the text, or the data does. -/
theorem status_high {pre : List Item} (a : ℕ) (mem : ℕ → ℕ) (hhigh : o.high ≤ buflen) :
    (o.run buflen (pre ++ statusRow k a mem)).high ≤ buflen ↔
      o.pos + (texts pre).length + 24 ≤ buflen := by
  have hlen : ("WB: 0x".toList ++ k.ptr a ++ [' ']).length = 23 := by
    simp only [List.length_append, k.length_ptr]
    rfl
  unfold statusRow
  rw [run_iff (by simp) hhigh, hlen]

theorem data_high {pre : List Item} (pg : Option ℕ) (hhigh : o.high ≤ buflen) :
    (o.run buflen (pre ++ dataRow k q pg)).high ≤ buflen ↔
      o.pos + (texts pre).length + 28 ≤ buflen := by
  have hlen : ("data 0: 0x".toList ++ k.ptr (pg.getD 0) ++ [' ']).length = 27 := by
    simp only [List.length_append, k.length_ptr]
    rfl
  unfold dataRow
  rw [run_iff (by simp) hhigh, hlen]

/-- What the rows read is there. -/
theorem descReads_iff {base : ℕ} (hd : q.desc = some base) (hstop : stop < 2 ^ 31)
    {fl : List DumpRead}
    (hfl : ∀ i ∈ visited q.conf.rngsz (stop - start).toNat start, q.hasFl = true → 0 ≤ start →
      (∀ a ∈ fl, Allocated a) → Allocated (.fl q i)) :
    (∀ a ∈ (visited q.conf.rngsz (stop - start).toNat start).flatMap (descRowReads q) ++
        [.descWb q] ++ fl, Allocated a) ↔
      (visited q.conf.rngsz (stop - start).toNat start = [] ∨ 0 ≤ start) ∧
        ∀ a ∈ fl, Allocated a := by
  have hsome : q.desc.isSome = true := by rw [hd]; rfl
  rw [List.forall_mem_append, List.forall_mem_append, List.forall_mem_singleton,
    ← visited_allocated hstop]
  constructor
  · rintro ⟨⟨hrows, -⟩, hrest⟩
    refine ⟨fun i hi => ?_, hrest⟩
    have hslot : Allocated (.desc q i) :=
      hrows _ (List.mem_flatMap.mpr ⟨i, hi, List.mem_cons_self⟩)
    exact hslot.2
  · rintro ⟨hslots, hrest⟩
    refine ⟨⟨fun a ha => ?_, hsome⟩, hrest⟩
    obtain ⟨i, hi, hmem⟩ := List.mem_flatMap.mp ha
    unfold descRowReads at hmem
    rcases List.mem_cons.mp hmem with rfl | hmem
    · exact ⟨hsome, hslots i hi⟩
    · by_cases hhas : q.hasFl = true
      · rw [if_pos hhas, List.mem_singleton] at hmem
        rw [hmem]
        refine hfl i hi hhas ?_ hrest
        exact (hslots start (start_visited (List.ne_nil_of_mem hi))).1
      · rw [if_neg hhas] at hmem
        exact absurd hmem List.not_mem_nil

/-- **The descriptors.** -/
theorem descDump_iff (hstop : stop < 2 ^ 31) (hhigh : o.high ≤ buflen)
    (hpos : o.pos = stateLen q) :
    (∀ r, qdmaDescqDumpDesc k q start stop buflen o = some r →
        (∀ a ∈ r.2, Allocated a) ∧ r.1.high ≤ buflen) ↔
      (q.desc.isSome = true →
        (visited q.conf.rngsz (stop - start).toNat start = [] ∨ 0 ≤ start) ∧
          stateLen q +
              ((visited q.conf.rngsz (stop - start).toNat start).map (descRowLen q)).sum +
              (if q.hasFl then 69 else 24) ≤ buflen ∧
          (q.hasFl = true →
            0 ≤ start + (visited q.conf.rngsz (stop - start).toNat start).length ∧
              start + (visited q.conf.rngsz (stop - start).toNat start).length < q.flSize ∧
              (q.flPg (start + (visited q.conf.rngsz (stop - start).toNat start).length)).isSome
                = true)) := by
  unfold qdmaDescqDumpDesc
  cases hd : q.desc with
  | none => exact iff_of_true (fun r hr => nomatch hr) (fun h => absurd h (by decide))
  | some base =>
      have hlen := length_texts_flatMap (length_descRow k q base)
        (visited q.conf.rngsz (stop - start).toNat start)
      simp only [Option.isSome_some, forall_const]
      by_cases hfl : q.hasFl = true
      · -- the data of the slot behind the range
        simp only [hfl, if_true, forall_const]
        rw [forall_some, descReads_iff hd hstop, data_high _ hhigh, texts_append,
          List.length_append, hlen, length_statusRow, hpos]
        · constructor
          · rintro ⟨⟨hstart, hreads⟩, hle⟩
            have hslot := hreads _ List.mem_cons_self
            have hpage := hreads _ (List.mem_cons_of_mem _ List.mem_cons_self)
            exact ⟨hstart, by omega, hslot.1, hslot.2, hpage⟩
          · rintro ⟨hstart, hle, hlow, hup, hpage⟩
            refine ⟨⟨hstart, fun a ha => ?_⟩, by omega⟩
            rcases List.mem_cons.mp ha with rfl | ha
            · exact ⟨hlow, hup⟩
            · rw [List.mem_singleton.mp ha]
              exact hpage
        · intro i hi _ hstart hreads
          have hslot : Allocated (.fl q _) := hreads _ List.mem_cons_self
          obtain ⟨hle, hlt, -⟩ := mem_visited hi
          exact ⟨hstart.trans hle, hlt.trans hslot.2⟩
      · have hreads := @descReads_iff q start stop base hd hstop []
          (fun i _ hhas => absurd hhas hfl)
        rw [List.append_nil] at hreads
        simp only [hfl, Bool.false_eq_true, if_false, false_implies, and_true]
        rw [forall_some, hreads, status_high _ _ hhigh, hlen, hpos]
        simp

/-- **The completions.** -/
theorem wrbDump_iff (hstop : stop < 2 ^ 31) (hhigh : o.high ≤ buflen)
    (hpos : o.pos = stateLen q) :
    (∀ r, qdmaDescqDumpWrb k q start stop buflen o = some r →
        (∀ a ∈ r.2, Allocated a) ∧ r.1.high ≤ buflen) ↔
      (q.descWrb.isSome = true →
        (visited q.conf.rngszWrb (stop - start).toNat start = [] ∨ 0 ≤ start) ∧
          stateLen q +
              ((visited q.conf.rngszWrb (stop - start).toNat start).map (wrbRowLen q)).sum + 24 ≤
            buflen) := by
  unfold qdmaDescqDumpWrb
  cases hd : q.descWrb with
  | none => exact iff_of_true (fun r hr => nomatch hr) (fun h => absurd h (by decide))
  | some base =>
      have hsome : q.descWrb.isSome = true := by rw [hd]; rfl
      have hlen := length_texts_flatMap (length_wrbRow k q base)
        (visited q.conf.rngszWrb (stop - start).toNat start)
      have hreads : (∀ a ∈ (visited q.conf.rngszWrb (stop - start).toNat start).map (.wrb q) ++
          [.wrbWb q], Allocated a) ↔
          visited q.conf.rngszWrb (stop - start).toNat start = [] ∨ 0 ≤ start := by
        rw [List.forall_mem_append, List.forall_mem_singleton, List.forall_mem_map,
          ← visited_allocated hstop]
        exact ⟨fun h i hi => (h.1 i hi).2, fun h => ⟨fun i hi => ⟨hsome, h i hi⟩, hsome⟩⟩
      simp only [Option.isSome_some, forall_const]
      rw [forall_some, hreads, status_high _ _ hhigh, hlen, hpos]

end Rings

/-! ## The contexts -/

section Contexts

variable {k : DumpEnv} {x : DumpDev} {q : DumpQueue} {buflen : ℕ}

theorem length_details : (descqDetails k q).flatten.length = detailsLen q := by
  have hstatus : ∀ mem, (hexDump (wordsOf mem statusSize)).length = 17 :=
    fun mem => length_wordsOf mem statusSize
  unfold descqDetails detailsLen
  simp only [List.flatten_append, List.length_append]
  refine congrArg₂ (· + ·) (congrArg₂ (· + ·) (congrArg₂ (· + ·) ?_ ?_) ?_) ?_
  · rw [List.flatten_singleton]
    simp only [List.length_append, k.length_ptr]
    show 7 + intLen (toInt q.qidxHw) + 6 + (q.wrkthp.getD ['?']).length + 2 +
      (q.wbthp.getD ['?']).length + 9 + 16 + 3 + hexLen q.descBus + 2 + decLen q.conf.rngsz + 1 = _
    omega
  · split_ifs
    · rw [List.flatten_singleton]
      simp only [List.length_append, k.length_ptr]
      show 12 + 16 + 3 + hexLen q.descWrbBus + 2 + decLen q.conf.rngszWrb = _
      omega
    · rfl
  · cases q.desc with
    | none => rfl
    | some a =>
        simp only [List.flatten_cons, List.flatten_nil, List.length_append, k.length_ptr, hstatus]
        rfl
  · cases q.descWrb with
    | none => rfl
    | some a =>
        simp only [List.flatten_cons, List.flatten_nil, List.length_append, k.length_ptr, hstatus]
        rfl

/-- The dump of a queue is there, or has been given up. -/
theorem descqDump_spec (hbuf : 0 < buflen) :
    (qdmaDescqDump k q buflen).1.Level ∧ (qdmaDescqDump k q buflen).1.high ≤ buflen ∧
      (qdmaDescqDump k q buflen).1.pos =
        if descqDumpLen q < buflen then descqDumpLen q else 0 := by
  obtain ⟨hlev, hhigh, hin, hout⟩ := dumpState_spec q hbuf
  unfold qdmaDescqDump descqDumpLen
  generalize qdmaDescqDumpState q buflen = r at hlev hhigh hin hout
  generalize stateLen q = len at hin hout
  obtain ⟨o, n⟩ := r
  simp only at hlev hhigh hin hout ⊢
  rcases Nat.lt_or_ge len buflen with hfit | hfit
  · obtain ⟨hpos, rfl⟩ := hin hfit
    have hn : ¬ n ≥ buflen := Nat.not_le.mpr hfit
    cases henabled : q.enabled with
    | false =>
        simp only [if_neg hn, Bool.not_false, if_true, Bool.false_eq_true, if_false, Nat.add_zero,
          if_pos hfit]
        exact ⟨hlev, hhigh, hpos⟩
    | true =>
        simp only [if_neg hn, Bool.not_true, Bool.false_eq_true, if_false, if_true]
        obtain ⟨hhigh', hall, hnone⟩ := snprintfs_spec (descqDetails k q) (hpos ▸ hfit) hhigh
        rw [length_details, hpos] at hall hnone
        rcases Nat.lt_or_ge (n + detailsLen q) buflen with h | h
        · obtain ⟨hend, htext, -⟩ := hall h
          refine ⟨?_, hhigh', by rw [hend, if_pos h]⟩
          unfold Out.Level
          rw [hend, htext, List.length_append, length_details, ← hlev, hpos]
        · obtain ⟨hend, htext, -⟩ := hnone h
          refine ⟨?_, hhigh', by rw [hend, if_neg (Nat.not_lt.mpr h)]⟩
          unfold Out.Level
          rw [hend, htext]
          rfl
  · obtain ⟨-, hn⟩ := hout hfit
    have hbig : ∀ m, ¬ len + m < buflen := fun m => by omega
    simp only [if_pos hn, if_neg (hbig _)]
    exact ⟨rfl, max_le hhigh hbuf, rfl⟩

theorem length_flatten_of_all {α : Type} {c : ℕ} {l : List (List α)} (h : ∀ s ∈ l, s.length = c) :
    l.flatten.length = c * l.length := by
  induction l with
  | nil => rfl
  | cons s l ih =>
      rw [List.flatten_cons, List.length_append, h s List.mem_cons_self,
        ih (fun s hs => h s (List.mem_cons_of_mem _ hs)), List.length_cons, Nat.mul_succ,
        Nat.add_comm]

theorem length_fmtWords {n : ℕ} (hn : n ≤ 10) (w : Fin n → Reg.Word) :
    (fmtWords w).length = 15 * n := by
  have hdec : ∀ d < 10, (fmtDec d).length = 1 := by decide
  unfold fmtWords
  rw [length_flatten_of_all (c := 15), List.length_ofFn]
  intro s hs
  obtain ⟨i, rfl⟩ := (List.mem_ofFn' _ _).mp hs
  simp only [List.length_append, length_fmtHexW]
  rw [hdec _ (by omega)]
  rfl

theorem length_contextLines (ctxt : Reg.HwDescqContext) :
    (contextLines q ctxt).flatten.length =
      169 + if q.conf.c2h && q.conf.st then 116 else 0 := by
  have hwords : ∀ {n : ℕ} (_ : n ≤ 10) (w : Fin n → Reg.Word), (fmtWords w).length = 15 * n :=
    fun hn w => length_fmtWords hn w
  unfold contextLines
  simp only [List.flatten_append, List.length_append]
  refine congrArg₂ (· + ·) ?_ ?_
  · simp only [List.flatten_cons, List.flatten_nil, List.length_append, length_fmtHexW,
      hwords (show 4 ≤ 10 by decide), hwords (show 2 ≤ 10 by decide)]
    rfl
  · split_ifs
    · simp only [List.flatten_cons, List.flatten_nil, List.length_append,
        hwords (show 4 ≤ 10 by decide), hwords (show 2 ≤ 10 by decide)]
      rfl
    · rfl

theorem contextLines_ne_nil (ctxt : Reg.HwDescqContext) : ∀ s ∈ contextLines q ctxt, s ≠ [] := by
  unfold contextLines
  rw [List.forall_mem_append]
  refine ⟨by simp, ?_⟩
  split_ifs
  · simp
  · exact fun _ hs => absurd hs List.not_mem_nil

/-- What is refused is safe if its message fits. -/
theorem refused_safe_iff {o : Out} {rv : ℤ} (hrv : rv < 0) :
    ({ out := o, rv := rv } : DumpResult).Safe buflen ↔ o.high ≤ buflen :=
  ⟨fun h => h.writes, fun h => DumpResult.safe_of_out h (.inl hrv)⟩

/-- The lines for the contexts of the interrupt rings. -/
theorem intrContextLines_spec :
    (intrContextLines k x q (List.range qdmaDataVecPerPfMax)).1.flatten.length =
        intrContextLen k x q ∧
      ∀ s ∈ (intrContextLines k x q (List.range qdmaDataVecPerPfMax)).1, s ≠ [] := by
  rw [show List.range qdmaDataVecPerPfMax = [0] from rfl]
  unfold intrContextLines intrContextLen
  simp only
  generalize getIntrRingIndex _ (0 + x.dvecStartIdx) = ringIndex
  cases k.intrContextRead ringIndex with
  | inl rv =>
      simp only [List.flatten_singleton, List.length_append]
      refine ⟨?_, ?_⟩
      · show q.name.length + 26 + intLen rv + 2 = _
        omega
      · simp
  | inr ctxt =>
      unfold intrContextLines
      simp only [List.flatten_singleton, List.length_append,
        length_fmtWords (show 4 ≤ 10 by decide)]
      refine ⟨?_, ?_⟩
      · show 12 + intLen (toInt ringIndex) + 20 + 60 + 1 = _
        omega
      · simp

/-- **The contexts**, behind what has been dumped. -/
theorem contexts_safe_iff {o : Out} (hlevel : o.Level) (hhigh : o.high ≤ buflen) :
    (match k.contextRead with
      | .inl rv =>
          { out := o.print (q.name ++ " read context failed ".toList ++ fmtInt rv ++
              ".\n".toList), rv := rv }
      | .inr ctxt =>
          let (lines, err) :=
            if x.vf then ([], none) else intrContextLines k x q (List.range qdmaDataVecPerPfMax)
          let o := o.run buflen ((contextLines q ctxt ++ lines).map .print)
          { out := o, rv := match err with | some rv => rv | none => o.pos } :
        DumpResult).Safe buflen ↔
      o.pos + contextLen k x q + 1 ≤ buflen := by
  unfold contextLen
  cases k.contextRead with
  | inl rv =>
      simp only
      rw [refused_safe_iff rv.2]
      have hlen : (q.name ++ " read context failed ".toList ++ fmtInt rv ++ ".\n".toList).length =
          q.name.length + 23 + intLen rv := by
        simp only [List.length_append]
        show q.name.length + 21 + intLen rv + 2 = _
        omega
      show max o.high (o.pos + _ + 1) ≤ buflen ↔ _
      rw [hlen]
      omega
  | inr ctxt =>
      have hvf : (if x.vf then ([], none)
            else intrContextLines k x q (List.range qdmaDataVecPerPfMax)).1.flatten.length =
            (if x.vf then 0 else intrContextLen k x q) ∧
          ∀ s ∈ (if x.vf then ([], none)
            else intrContextLines k x q (List.range qdmaDataVecPerPfMax)).1, s ≠ [] := by
        cases x.vf with
        | true => exact ⟨rfl, fun _ hs => absurd hs List.not_mem_nil⟩
        | false => exact intrContextLines_spec
      generalize (if x.vf then ([], none)
        else intrContextLines k x q (List.range qdmaDataVecPerPfMax)) = r at hvf ⊢
      obtain ⟨lines, err⟩ := r
      obtain ⟨hlen, hlines⟩ := hvf
      simp only
      have hctxt := @length_contextLines q ctxt
      have hctxtLines := @contextLines_ne_nil q ctxt
      generalize contextLines q ctxt = ctxtLines at hctxt hctxtLines ⊢
      have hne : ctxtLines ++ lines ≠ [] := by
        rintro hnil
        rw [(List.append_eq_nil_iff.mp hnil).1, List.flatten_nil, List.length_nil] at hctxt
        omega
      have hfits := prints_iff hne (List.forall_mem_append.mpr ⟨hctxtLines, hlines⟩) hhigh
      rw [List.flatten_append, List.length_append, hctxt, hlen] at hfits
      rw [← hfits]
      refine ⟨fun h => h.writes, fun h => DumpResult.safe_of_out h ?_⟩
      cases err with
      | some rv => exact .inl rv.2
      | none => exact .inr (congrArg Nat.cast (hlevel.run _))

/-- The queue with its contexts. -/
theorem queueDump_safe_iff (hbuf : 0 < buflen) :
    (match k.contextRead with
      | .inl rv =>
          { out := (qdmaDescqDump k q buflen).1.print (q.name ++ " read context failed ".toList ++
              fmtInt rv ++ ".\n".toList), rv := rv }
      | .inr ctxt =>
          let (lines, err) :=
            if x.vf then ([], none) else intrContextLines k x q (List.range qdmaDataVecPerPfMax)
          let o := (qdmaDescqDump k q buflen).1.run buflen
            ((contextLines q ctxt ++ lines).map .print)
          { out := o, rv := match err with | some rv => rv | none => o.pos } :
        DumpResult).Safe buflen ↔
      QueueFits k x q buflen := by
  obtain ⟨hlevel, hhigh, hpos⟩ := @descqDump_spec k q buflen hbuf
  unfold QueueFits
  rw [← hpos]
  exact contexts_safe_iff hlevel hhigh

end Contexts

/-! ## The interface -/

/-- **A queue is looked up**: without one there is a message, which has to fit. -/
theorem lookup_safe_iff {k : DumpEnv} {x : DumpDev} {idx buflen : ℕ} {init : Bool} {rv : ℤ}
    (hrv : rv < 0) {dump : DumpQueue → DumpResult} {D : DumpQueue → Prop}
    (hdump : ∀ q, (dump q).Safe buflen ↔ D q) :
    (match getDescqById k x idx init with
      | (none, o) => { out := o, rv := rv }
      | (some q, _) => dump q : DumpResult).Safe buflen ↔
      match lookup x idx init with
      | .inl n => n ≤ buflen
      | .inr q => D q := by
  have hspec := getDescqById_lookup k x idx init
  generalize getDescqById k x idx init = r at hspec
  obtain ⟨found, o⟩ := r
  cases hlookup : lookup x idx init with
  | inl n =>
      rw [hlookup] at hspec
      obtain ⟨rfl, rfl⟩ := hspec
      exact refused_safe_iff hrv
  | inr q =>
      rw [hlookup] at hspec
      obtain rfl := hspec
      exact hdump q

/-- What is refused with a message is safe if it fits, and what is read before is there. -/
theorem intrRefused_safe_iff {buflen : ℕ} (reads : List DumpRead) (msg : List Char) :
    (intrRefused reads msg).Safe buflen ↔
      (∀ a ∈ reads, Allocated a) ∧ msg.length + 1 ≤ buflen := by
  have hhigh : (intrRefused reads msg).out.high = msg.length + 1 := by
    show max 0 (0 + msg.length + 1) = _
    omega
  constructor
  · intro h
    exact ⟨h.reads, hhigh ▸ h.writes⟩
  · rintro ⟨hreads, hfits⟩
    exact ⟨hreads, hhigh.trans_le hfits, .inl (by decide : (-1 : ℤ) < 0)⟩

/-- The same where nothing is read. -/
theorem intrRefused_nil_safe_iff {buflen : ℕ} (msg : List Char) :
    (intrRefused [] msg).Safe buflen ↔ msg.length + 1 ≤ buflen := by
  rw [intrRefused_safe_iff, and_iff_right (fun a ha => absurd ha List.not_mem_nil)]

/-- And where the list of rings is. -/
theorem intrRefused_coal_safe_iff {buflen : ℕ} (alloc : Bool) (msg : List Char) :
    (intrRefused [.coal alloc] msg).Safe buflen ↔ alloc = true ∧ msg.length + 1 ≤ buflen := by
  rw [intrRefused_safe_iff, List.forall_mem_singleton]
  exact Iff.rfl

/-- A range of an interrupt ring has text. -/
theorem intrRows_text_length (e : DumpIntrRing) {first last : ℤ} (h : first ≤ last)
    (buflen : ℕ) :
    0 < (Out.run buflen {} ((indicesFrom first (last - first + 1).toNat).map
      (intrRow e))).text.length := by
  have hrow : (last - first + 1).toNat = (last - first).toNat + 1 := by omega
  unfold indicesFrom
  rw [hrow, List.range_succ_eq_map, List.map_cons, List.map_cons, run_cons]
  refine Nat.lt_of_lt_of_le ?_ (run_text_length _ _ _)
  show 0 < ([] ++ (_ ++ ['\n'])).length
  rw [List.nil_append, List.length_append]
  exact Nat.succ_pos _

/-- **An interrupt ring.**  A dump that is made has text, and returns 0. -/
theorem intrDump_safe_iff {x : DumpDev} {vectorIdx : ℕ} {startIdx endIdx : ℤ} {buflen : ℕ} :
    (qdmaIntrRingDump x vectorIdx startIdx endIdx buflen).Safe buflen ↔
      IntrFits x vectorIdx startIdx endIdx buflen := by
  unfold qdmaIntrRingDump IntrFits
  cases x.intrCoalEn with
  | false =>
      simp only [Bool.not_false, if_true]
      exact intrRefused_nil_safe_iff _
  | true =>
      simp only [Bool.not_true, Bool.false_eq_true, if_false]
      by_cases hvec : vectorIdx < x.dvecStartIdx ∨
          vectorIdx ≥ x.dvecStartIdx + qdmaDataVecPerPfMax
      · rw [if_pos hvec, if_pos hvec, intrRefused_nil_safe_iff]
        simp only [List.length_append]
        show 11 + intLen (toInt vectorIdx) + 32 + decLen x.dvecStartIdx + 4 +
          decLen (x.dvecStartIdx + qdmaDataVecPerPfMax - 1) + 2 + 1 ≤ buflen ↔ _
        omega
      · rw [if_neg hvec, if_neg hvec]
        generalize x.intrCoalList (vectorIdx - x.dvecStartIdx) = e
        by_cases hstart : startIdx > e.intrRngNumEntries
        · rw [if_pos hstart, if_pos hstart, intrRefused_coal_safe_iff]
          refine and_congr_right fun _ => ?_
          simp only [List.length_append]
          show 10 + intLen startIdx + 33 + decLen e.intrRngNumEntries + 2 + 1 ≤ buflen ↔ _
          omega
        · rw [if_neg hstart, if_neg hstart]
          generalize (if endIdx = -1 ∨ endIdx ≥ e.intrRngNumEntries then
            (e.intrRngNumEntries : ℤ) - 1 else endIdx) = last
          generalize (if startIdx = -1 then 0 else startIdx) = first
          by_cases hempty : first > last
          · rw [if_pos hempty, intrRefused_coal_safe_iff, and_iff_right hempty]
            exact Iff.rfl
          · rw [if_neg hempty]
            refine iff_of_false (fun h => ?_) (fun h => hempty h.2.1)
            rcases h.returns with hneg | htext
            · exact absurd hneg (lt_irrefl 0)
            · have hlen := intrRows_text_length e (Int.not_lt.mp hempty) buflen
              replace htext : (0 : ℤ) = (Out.run buflen {} ((indicesFrom first
                (last - first + 1).toNat).map (intrRow e))).text.length := htext
              omega

/-- **When a dump is safe**, for every queue, every range and every buffer. -/
theorem dump_safe_iff (k : DumpEnv) (x : DumpDev) {buflen : ℕ} (hbuf : 1 ≤ buflen)
    (c : DumpCall) : (c.run k x buflen).Safe buflen ↔ c.Fits k x buflen := by
  have hint : ∀ n : BitVec 32, toInt n.toNat < 2 ^ 31 := fun n => toInt_lt n.isLt
  cases c with
  | desc id start stop =>
      show (qdmaQueueDumpDesc k x id start.toNat stop.toNat buflen).Safe buflen ↔ _
      unfold qdmaQueueDumpDesc
      rw [if_neg (by omega)]
      exact lookup_safe_iff (by decide) fun q =>
        dumpBehindState_safe_iff k q hbuf (fun _ _ => descDump_level)
          (fun _ => descDump_iff (hint stop))
  | wrb id start stop =>
      exact lookup_safe_iff (by decide) fun q =>
        dumpBehindState_safe_iff k q hbuf (fun _ _ => wrbDump_level)
          (fun _ => wrbDump_iff (hint stop))
  | queue id =>
      show (qdmaQueueDump k x id buflen).Safe buflen ↔ _
      unfold qdmaQueueDump
      refine lookup_safe_iff (by decide) fun q => ?_
      rw [if_neg (by omega)]
      exact queueDump_safe_iff hbuf
  | intr vectorIdx startIdx endIdx => exact intrDump_safe_iff

/-- An environment, -/
def dumpEnv : DumpEnv where
  ptr _ := List.replicate 16 '0'
  length_ptr _ := rfl
  contextRead := .inr {}
  intrContextRead _ := .inr fun _ => 0

/-- a queue with a ring of four slots and a page for each, -/
def dumpQueue (st : Bool) : DumpQueue where
  name := "q".toList
  conf := { st := st, c2h := true, rngsz := 4 }
  online := true
  inited := true
  enabled := true
  desc := some 4096
  flSize := 4
  flPg i := if 0 ≤ i ∧ i < 4 then some 8192 else none

/-- and a device with such queues and an interrupt ring of eight entries. -/
def dumpDev (st : Bool) : DumpDev where
  name := "dev".toList
  qmax := some 1
  h2cDescq _ := dumpQueue st
  c2hDescq _ := dumpQueue st
  intrCoalEn := true
  intrCoalList _ := { intrRngNumEntries := 8 }

/-- A dump of two descriptors. -/
theorem dump_safe_two :
    ((DumpCall.desc 0 0 2).run dumpEnv (dumpDev false) 512).Safe 512 := by
  refine (dump_safe_iff dumpEnv (dumpDev false) (by decide) _).mpr ?_
  show DescFits (dumpQueue false) 0 2 512
  exact ⟨by decide, fun _ _ => ⟨.inr (by decide), by decide, fun h => absurd h (by decide)⟩⟩

/-- A dump of a whole receive ring reads the free list behind its end, one of two descriptors leaves
a buffer of 100 bytes, and one of an interrupt ring from -2 on reads in front of it, or, once the
list of rings is freed, what was there. -/
theorem dump_unsafe :
    DumpRead.fl (dumpQueue true) 4 ∈
        ((DumpCall.desc 0 0 4).run dumpEnv (dumpDev true) 4096).reads ∧
      100 < ((DumpCall.desc 0 0 2).run dumpEnv (dumpDev false) 100).out.high ∧
      DumpRead.intr { intrRngNumEntries := 8 } (-2) ∈
        ((DumpCall.intr 0 (-2) 0).run dumpEnv (dumpDev false) 4096).reads ∧
      ¬ ((DumpCall.desc 0 0 4).run dumpEnv (dumpDev true) 4096).Safe 4096 ∧
      ¬ ((DumpCall.desc 0 0 2).run dumpEnv (dumpDev false) 100).Safe 100 ∧
      ¬ ((DumpCall.intr 0 (-2) 0).run dumpEnv (dumpDev false) 4096).Safe 4096 ∧
      ¬ ((DumpCall.intr 0 9 0).run dumpEnv
        { dumpDev false with intrCoalAlloc := false } 4096).Safe 4096 := by
  have hfl : DumpRead.fl (dumpQueue true) 4 ∈
      ((DumpCall.desc 0 0 4).run dumpEnv (dumpDev true) 4096).reads :=
    List.mem_of_getElem? (i := 9) rfl
  have hhigh : 100 < ((DumpCall.desc 0 0 2).run dumpEnv (dumpDev false) 100).out.high := by
    decide
  have hintr : DumpRead.intr { intrRngNumEntries := 8 } (-2) ∈
      ((DumpCall.intr 0 (-2) 0).run dumpEnv (dumpDev false) 4096).reads :=
    List.mem_of_getElem? (i := 1) rfl
  refine ⟨hfl, hhigh, hintr, fun h => ?_, fun h => ?_, fun h => ?_, fun h => ?_⟩
  · exact absurd (h.reads _ hfl).2 (by decide)
  · exact absurd h.writes (Nat.not_le.mpr hhigh)
  · exact absurd (h.reads _ hintr).1 (by decide)
  · exact absurd (h.reads (.coal false) (.head _)) Bool.false_ne_true

end Qdma
