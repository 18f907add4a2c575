/-
# Mapping the pages of a request

`qdma_request_submit` and `qdma_queue_packet_write` map the pages of a scatter list for the
device, unless the caller has done so; `qdma_sgt_req_done` unmaps them when the request is
complete, and the two functions where they fail.  What is mapped shows in `dma_addr` only, and
every call of `pci_map_page` and `pci_unmap_page` is written down here, with the moment at which
the caller gets its buffer back.

`dma_mapping_iff` says when each page is mapped and unmapped in pairs and by then; `dma_mapping_off`
has the cases in which it is not: a page in the middle of a list cannot be mapped, and
`qdma_queue_packet_write` is called without `fp_done`.
-/
import Qdma.Setup

namespace Qdma

/-! ## Scatter lists -/

/-- A call of the DMA API for entry `i` of a scatter list, successful if it maps; or the caller
gets its buffer back. -/
inductive DmaOp where
  | map (i addr : ℕ)
  | unmap (i addr : ℕ)
  | back
  deriving DecidableEq

/-- `pci_map_page` returns a bus address, or an error value. -/
inductive MapOutcome where
  | ok (addr : Fin (2 ^ 64))
  | error (cookie : Fin (2 ^ 64))

/-- The difference of two `dma_addr_t`. -/
def u64Sub (a b : ℕ) : ℕ := (2 ^ 64 - b % 2 ^ 64 + a) % 2 ^ 64

/-- `sgl_map`, from entry `i` on: the list, the calls made, and the result. -/
def sglMap (map : ℕ → MapOutcome) : ℕ → List SwSg → List SwSg × List DmaOp × ℤ
  | _, [] => ([], [], 0)
  | i, sg :: sgl =>
      match map i with
      | .error cookie => ({ sg with dmaAddr := cookie } :: sgl, [], eio)
      | .ok addr =>
          let (sgl, ops, rv) := sglMap map (i + 1) sgl
          ({ sg with dmaAddr := u64 (addr + sg.offset) } :: sgl, .map i addr :: ops, rv)

/-- `sgl_unmap`, from entry `i` on. -/
def sglUnmap : ℕ → List SwSg → List SwSg × List DmaOp
  | _, [] => ([], [])
  | i, sg :: sgl =>
      if sg.pg = 0 then (sg :: sgl, [])
      else
        let (sgl, ops) := sglUnmap (i + 1) sgl
        if sg.dmaAddr ≠ 0 then
          ({ sg with dmaAddr := 0 } :: sgl, .unmap i (u64Sub sg.dmaAddr sg.offset) :: ops)
        else (sg :: sgl, ops)

/-! ## Requests -/

/-- A memory-mapped queue of a direction, or an ST H2C queue. -/
inductive TxKind where
  | mm (c2h : Bool)
  | stH2c
  deriving DecidableEq

/-- `descq->conf.c2h`. -/
def TxKind.c2h : TxKind → Bool
  | .mm c2h => c2h
  | .stH2c => false

/-- A call of `qdma_queue_packet_write` or of `qdma_request_submit`: whether the queue is found and
online, its kind, the fields of the request, and the answers of `pci_map_page`. -/
structure MapCall where
  packetWrite : Bool
  found : Bool := true
  kind : TxKind
  online : Bool := true
  write : Bool
  dmaMapped : Bool := false
  fpDone : Bool
  sgl : List SwSg
  map : ℕ → MapOutcome

/-- A request, as far as its mapping goes. -/
structure MapReq where
  sgl : List SwSg
  unmapNeeded : Bool := false
  log : List DmaOp := []

/-- `sgl_unmap` of a request. -/
def MapReq.unmap (r : MapReq) : MapReq :=
  { r with sgl := (sglUnmap 0 r.sgl).1, log := r.log ++ (sglUnmap 0 r.sgl).2 }

/-- The caller gets its buffer back. -/
def MapReq.giveBack (r : MapReq) : MapReq := { r with log := r.log ++ [.back] }

/-- `qdma_sgt_req_done`. -/
def MapReq.reqDone (r : MapReq) : MapReq :=
  if r.unmapNeeded then { r.unmap with unmapNeeded := false } else r

/-- The label `unmap_sgl` of the function. -/
def MapCall.unmapSgl (c : MapCall) (r : MapReq) : MapReq :=
  if c.packetWrite then if r.unmapNeeded then r.unmap else r
  else if !c.dmaMapped then r.unmap else r

/-- The function up to the moment at which the request is on the list of the queue, or its
result. -/
def MapCall.enter (c : MapCall) : MapReq × Option ℤ :=
  let r : MapReq := { sgl := c.sgl }
  if !c.found then (r, some einval)
  else if c.packetWrite && c.kind != .stH2c then (r, some einval)
  else if !c.packetWrite && (c.write && c.kind.c2h || !c.write && !c.kind.c2h) then
    (r, some einval)
  else
    let (r, rv) : MapReq × ℤ :=
      if !c.dmaMapped then
        let (sgl, ops, rv) := sglMap c.map 0 r.sgl
        ({ r with sgl := sgl, log := r.log ++ ops, unmapNeeded := decide (0 ≤ rv) }, rv)
      else (r, 0)
    if rv < 0 then (c.unmapSgl r, some rv)
    else if !c.online then (c.unmapSgl r, some einval)
    else (r, none)

/-- What becomes of a request on the list: nothing yet, it is done, or the call stops waiting for
it. -/
inductive Course where
  | pending
  | done (error : ℤ)
  | gaveUp

/-- **The life of a request.**  Without `fp_done` the caller has its buffer back when the call
returns, with it when it is called back; `qdma_queue_packet_write` never waits. -/
def MapCall.life (c : MapCall) (course : Course) : MapReq :=
  match c.enter with
  | (r, some _) => r.giveBack
  | (r, none) =>
      if c.packetWrite then
        let r := if c.fpDone then r else r.giveBack
        match course with
        | .done _ => if c.fpDone then r.reqDone.giveBack else r.reqDone
        | _ => r
      else if c.fpDone then
        match course with
        | .done _ => r.reqDone.giveBack
        | _ => r
      else
        match course with
        | .pending => r
        | .done error => (if error ≠ 0 then c.unmapSgl r.reqDone else r.reqDone).giveBack
        | .gaveUp => (c.unmapSgl r).giveBack

/-! ## The law -/

/-- The calls for entry `i`. -/
def ofEntry (i : ℕ) (log : List DmaOp) : List DmaOp :=
  log.filter (fun op =>
    match op with
    | .map j _ => decide (j = i)
    | .unmap j _ => decide (j = i)
    | .back => false)

/-- **The discipline**: a page is mapped and then unmapped at the same address, or still mapped
before the buffer is given back, or nothing is done to it; and nothing happens after that. -/
structure Disciplined (log : List DmaOp) : Prop where
  paired : ∀ i, ofEntry i log = [] ∨
    (∃ addr, ofEntry i log = [.map i addr, .unmap i addr]) ∨
    (.back ∉ log ∧ ∃ addr, ofEntry i log = [.map i addr])
  last : ∀ pre post, log = pre ++ .back :: post → post = []

/-- The number of entries mapped, of `n` from entry `i` on. -/
def mapCount (map : ℕ → MapOutcome) : ℕ → ℕ → ℕ
  | _, 0 => 0
  | i, n + 1 =>
      match map i with
      | .ok _ => mapCount map (i + 1) n + 1
      | .error _ => 0

/-- `sgl_unmap` comes to entry `i`: no entry up to it lacks its page. -/
def Reaches (sgl : List SwSg) (i : ℕ) : Prop := ∀ j ≤ i, (sgl.map SwSg.pg)[j]? ≠ some 0

/-- **The lists that `sgl_unmap` undoes.**  Of the entries mapped, each has a page, as all before it
have, and its address is not 0; of the others none is reached whose `dma_addr` is not 0, this being
for the first of them the error value. -/
def MapCall.Undone (c : MapCall) : Prop :=
  ∀ i sg, c.sgl[i]? = some sg →
    if i < mapCount c.map 0 c.sgl.length then
      Reaches c.sgl i ∧ ∀ addr, c.map i = .ok addr → u64 (addr + sg.offset) ≠ 0
    else
      Reaches c.sgl i → if i = mapCount c.map 0 c.sgl.length then
        ∀ cookie, c.map i = .error cookie → cookie = 0
      else sg.dmaAddr = 0

/-- The queue takes the request. -/
def MapCall.Takes (c : MapCall) : Prop :=
  c.found = true ∧ if c.packetWrite then c.kind = .stH2c else c.write ≠ c.kind.c2h

/-- The driver maps all pages. -/
def MapCall.MapsAll (c : MapCall) : Prop := mapCount c.map 0 c.sgl.length = c.sgl.length

instance (c : MapCall) : Decidable c.MapsAll := inferInstanceAs (Decidable (_ = _))

/-- **The calls and courses that keep the discipline**, where the driver maps the pages. -/
def MapCall.Keeps (c : MapCall) (course : Course) : Prop :=
  c.Takes → c.dmaMapped = false →
    (¬ c.MapsAll → if c.packetWrite then mapCount c.map 0 c.sgl.length = 0 else c.Undone) ∧
    (c.MapsAll → c.online = false → c.Undone) ∧
    (c.MapsAll → c.online = true → if c.packetWrite ∧ c.fpDone = false then c.sgl = []
      else match course with
        | .pending => True
        | .done _ => c.Undone
        | .gaveUp => c.fpDone = false → c.Undone)

/-! ## The calls for one entry -/

@[simp] theorem ofEntry_append (i : ℕ) (l l' : List DmaOp) :
    ofEntry i (l ++ l') = ofEntry i l ++ ofEntry i l' := List.filter_append ..

@[simp] theorem ofEntry_back (i : ℕ) : ofEntry i [.back] = [] := rfl

theorem ofEntry_map (i j addr : ℕ) (l : List DmaOp) :
    ofEntry i (.map j addr :: l) = if j = i then .map j addr :: ofEntry i l else ofEntry i l := by
  unfold ofEntry
  rw [List.filter_cons]
  simp

theorem ofEntry_unmap (i j addr : ℕ) (l : List DmaOp) :
    ofEntry i (.unmap j addr :: l)
      = if j = i then .unmap j addr :: ofEntry i l else ofEntry i l := by
  unfold ofEntry
  rw [List.filter_cons]
  simp

/-- The call that maps an entry, if it succeeds. -/
def mapOp (map : ℕ → MapOutcome) (i : ℕ) : List DmaOp :=
  match map i with
  | .ok addr => [.map i addr]
  | .error _ => []

/-- What `sgl_map` does for an entry. -/
theorem ofEntry_sglMap (map : ℕ → MapOutcome) (e : ℕ) (sgl : List SwSg) (i : ℕ) :
    ofEntry e (sglMap map i sgl).2.1
      = if i ≤ e ∧ e < i + mapCount map i sgl.length then mapOp map e else [] := by
  induction sgl generalizing i with
  | nil =>
      rw [if_neg]
      · rfl
      · rintro ⟨h1, h2⟩
        exact absurd h2 (by show ¬ e < i + 0; omega)
  | cons sg sgl ih =>
      rw [List.length_cons]
      unfold sglMap mapCount
      cases hm : map i with
      | error cookie =>
          simp only
          rw [if_neg (by omega)]
          rfl
      | ok addr =>
          simp only
          rw [ofEntry_map, ih]
          by_cases he : i = e
          · subst he
            rw [if_pos rfl, if_neg (by omega), if_pos (by omega), mapOp, hm]
          · rw [if_neg he]
            exact if_congr (by omega) rfl rfl

/-- Its list: addresses, one error value, and the rest. -/
theorem sglMap_get (map : ℕ → MapOutcome) (sgl : List SwSg) (i j : ℕ) (sg : SwSg)
    (h : sgl[j]? = some sg) :
    ∃ sg', (sglMap map i sgl).1[j]? = some sg' ∧ sg'.pg = sg.pg ∧ sg'.offset = sg.offset ∧
      (j < mapCount map i sgl.length → ∃ addr, map (i + j) = .ok addr ∧
        sg'.dmaAddr = u64 (addr + sg.offset)) ∧
      (j = mapCount map i sgl.length → ∃ cookie, map (i + j) = .error cookie ∧
        sg'.dmaAddr = cookie) ∧
      (mapCount map i sgl.length < j → sg' = sg) := by
  induction sgl generalizing i j with
  | nil => exact absurd h (by simp)
  | cons sg0 sgl ih =>
      rw [List.length_cons]
      unfold sglMap mapCount
      cases hm : map i with
      | error cookie =>
          simp only
          cases j with
          | zero =>
              obtain rfl : sg0 = sg := by simpa using h
              refine ⟨_, rfl, rfl, rfl, fun hlt => absurd hlt (lt_irrefl 0), fun _ => ?_,
                fun hlt => absurd hlt (lt_irrefl 0)⟩
              exact ⟨cookie, hm, rfl⟩
          | succ j =>
              refine ⟨sg, by simpa using h, rfl, rfl, fun hlt => absurd hlt (Nat.not_lt_zero _),
                fun heq => absurd heq (Nat.succ_ne_zero j), fun _ => rfl⟩
      | ok addr =>
          simp only
          cases j with
          | zero =>
              obtain rfl : sg0 = sg := by simpa using h
              refine ⟨_, rfl, rfl, rfl, fun _ => ⟨addr, hm, rfl⟩, fun heq => ?_, fun hlt => ?_⟩
              · exact absurd heq (Nat.succ_ne_zero _).symm
              · exact absurd hlt (Nat.not_lt_zero _)
          | succ j =>
              obtain ⟨sg', hget, hpg, hoff, h1, h2, h3⟩ := ih (i + 1) j (by simpa using h)
              have hj : i + (j + 1) = i + 1 + j := by omega
              rw [hj]
              exact ⟨sg', by simpa using hget, hpg, hoff, fun hlt => h1 (by omega),
                fun heq => h2 (by omega), fun hlt => h3 (by omega)⟩

theorem length_sglMap (map : ℕ → MapOutcome) (sgl : List SwSg) (i : ℕ) :
    (sglMap map i sgl).1.length = sgl.length := by
  induction sgl generalizing i with
  | nil => rfl
  | cons sg sgl ih =>
      unfold sglMap
      cases map i with
      | error cookie => rfl
      | ok addr => exact congrArg (· + 1) (ih (i + 1))

theorem mapCount_le (map : ℕ → MapOutcome) (i n : ℕ) : mapCount map i n ≤ n := by
  induction n generalizing i with
  | zero => exact le_rfl
  | succ n ih =>
      unfold mapCount
      cases map i with
      | error cookie => exact Nat.zero_le _
      | ok addr => exact Nat.succ_le_succ (ih (i + 1))

/-- `sgl_map` fails exactly if it does not map all entries. -/
theorem sglMap_rv (map : ℕ → MapOutcome) (sgl : List SwSg) (i : ℕ) :
    (sglMap map i sgl).2.2 = if mapCount map i sgl.length = sgl.length then 0 else eio := by
  induction sgl generalizing i with
  | nil => rfl
  | cons sg sgl ih =>
      rw [List.length_cons]
      unfold sglMap mapCount
      cases map i with
      | error cookie => rfl
      | ok addr =>
          simp only
          rw [ih]
          exact if_congr (by omega) rfl rfl

theorem sglMap_pg (map : ℕ → MapOutcome) (sgl : List SwSg) (i : ℕ) :
    (sglMap map i sgl).1.map SwSg.pg = sgl.map SwSg.pg := by
  induction sgl generalizing i with
  | nil => rfl
  | cons sg sgl ih =>
      unfold sglMap
      cases map i with
      | error cookie => rfl
      | ok addr => exact congrArg (sg.pg :: ·) (ih (i + 1))

theorem reaches_congr {sgl sgl' : List SwSg} (h : sgl'.map SwSg.pg = sgl.map SwSg.pg) (i : ℕ) :
    Reaches sgl' i ↔ Reaches sgl i := by
  unfold Reaches
  rw [h]

theorem reaches_zero (sg : SwSg) (sgl : List SwSg) : Reaches (sg :: sgl) 0 ↔ sg.pg ≠ 0 := by
  constructor
  · intro h hpg
    exact h 0 le_rfl (by rw [List.map_cons, hpg]; rfl)
  · intro h j hj
    obtain rfl : j = 0 := Nat.le_zero.mp hj
    intro heq
    exact h (by simpa using heq)

theorem reaches_succ (sg : SwSg) (sgl : List SwSg) (i : ℕ) :
    Reaches (sg :: sgl) (i + 1) ↔ sg.pg ≠ 0 ∧ Reaches sgl i := by
  constructor
  · intro h
    refine ⟨(reaches_zero sg sgl).mp (fun j hj => h j (by omega)), fun j hj => ?_⟩
    exact h (j + 1) (by omega)
  · rintro ⟨h0, h⟩ j hj
    cases j with
    | zero => exact (reaches_zero sg sgl).mpr h0 0 le_rfl
    | succ j => exact h j (by omega)

/-- What `sgl_unmap` does for an entry of the list. -/
theorem ofEntry_sglUnmap (sgl : List SwSg) (i j : ℕ) (sg : SwSg) (h : sgl[j]? = some sg) :
    (Reaches sgl j → sg.dmaAddr ≠ 0 →
        ofEntry (i + j) (sglUnmap i sgl).2 = [.unmap (i + j) (u64Sub sg.dmaAddr sg.offset)]) ∧
      ((Reaches sgl j → sg.dmaAddr = 0) → ofEntry (i + j) (sglUnmap i sgl).2 = []) := by
  -- entries before the list have no calls
  have hbefore : ∀ (sgl : List SwSg) (i e : ℕ), e < i → ofEntry e (sglUnmap i sgl).2 = [] := by
    intro sgl
    induction sgl with
    | nil => exact fun _ _ _ => rfl
    | cons sg sgl ih =>
        intro i e he
        unfold sglUnmap
        simp only
        split_ifs
        · rfl
        · rw [ofEntry_unmap, if_neg (by omega)]
          exact ih (i + 1) e (by omega)
        · exact ih (i + 1) e (by omega)
  induction sgl generalizing i j with
  | nil => exact absurd h (by simp)
  | cons sg0 sgl ih =>
      unfold sglUnmap
      by_cases hpg : sg0.pg = 0
      · rw [if_pos hpg]
        have hno : ¬ Reaches (sg0 :: sgl) j :=
          fun hr => (reaches_zero sg0 sgl).mp (fun j' hj' => hr j' (by omega)) hpg
        exact ⟨fun hr => absurd hr hno, fun _ => rfl⟩
      rw [if_neg hpg]
      simp only
      cases j with
      | zero =>
          obtain rfl : sg0 = sg := by simpa using h
          have hrest := hbefore sgl (i + 1) i (Nat.lt_succ_self i)
          rw [reaches_zero, Nat.add_zero]
          by_cases hz : sg0.dmaAddr = 0
          · rw [if_neg (not_not.mpr hz)]
            exact ⟨fun _ hne => absurd hz hne, fun _ => hrest⟩
          · rw [if_pos hz, ofEntry_unmap, if_pos rfl, hrest]
            exact ⟨fun _ _ => rfl, fun hzero => absurd (hzero hpg) hz⟩
      | succ j =>
          have hget : sgl[j]? = some sg := by simpa using h
          have htail := ih (i + 1) j hget
          have hj : i + (j + 1) = i + 1 + j := by omega
          rw [reaches_succ, hj]
          have hskip : ofEntry (i + 1 + j) (if sg0.dmaAddr ≠ 0 then
              ({ sg0 with dmaAddr := 0 } :: (sglUnmap (i + 1) sgl).1,
                DmaOp.unmap i (u64Sub sg0.dmaAddr sg0.offset) :: (sglUnmap (i + 1) sgl).2)
              else (sg0 :: (sglUnmap (i + 1) sgl).1, (sglUnmap (i + 1) sgl).2)).2
              = ofEntry (i + 1 + j) (sglUnmap (i + 1) sgl).2 := by
            split_ifs
            · rw [ofEntry_unmap, if_neg (by omega)]
            · rfl
          rw [hskip]
          exact ⟨fun hr => htail.1 hr.2, fun hz => htail.2 (fun hr => hz ⟨hpg, hr⟩)⟩

theorem ofEntry_sglUnmap_out (sgl : List SwSg) (i e : ℕ) (h : i + sgl.length ≤ e) :
    ofEntry e (sglUnmap i sgl).2 = [] := by
  induction sgl generalizing i with
  | nil => rfl
  | cons sg sgl ih =>
      rw [List.length_cons] at h
      unfold sglUnmap
      simp only
      split_ifs
      · rfl
      · rw [ofEntry_unmap, if_neg (by omega)]
        exact ih (i + 1) (by omega)
      · exact ih (i + 1) (by omega)

/-- After it there is nothing left to unmap. -/
theorem sglUnmap_twice (sgl : List SwSg) (i : ℕ) :
    (sglUnmap i (sglUnmap i sgl).1).2 = [] := by
  induction sgl generalizing i with
  | nil => rfl
  | cons sg sgl ih =>
      by_cases hpg : sg.pg = 0
      · have hstop : sglUnmap i (sg :: sgl) = (sg :: sgl, []) := by rw [sglUnmap, if_pos hpg]
        rw [hstop]
        exact congrArg Prod.snd hstop
      · have hcons : ∃ sg', sg'.pg = sg.pg ∧ sg'.dmaAddr = 0 ∧
            (sglUnmap i (sg :: sgl)).1 = sg' :: (sglUnmap (i + 1) sgl).1 := by
          rw [sglUnmap, if_neg hpg]
          simp only
          split_ifs with hz
          · exact ⟨{ sg with dmaAddr := 0 }, rfl, rfl, rfl⟩
          · exact ⟨sg, rfl, not_not.mp hz, rfl⟩
        obtain ⟨sg', hpg', hz', heq⟩ := hcons
        rw [heq, sglUnmap, if_neg (by rw [hpg']; exact hpg)]
        simp only
        rw [if_neg (not_not.mpr hz')]
        exact ih (i + 1)

theorem back_notMem_sglMap (map : ℕ → MapOutcome) (sgl : List SwSg) (i : ℕ) :
    DmaOp.back ∉ (sglMap map i sgl).2.1 := by
  induction sgl generalizing i with
  | nil => exact List.not_mem_nil
  | cons sg sgl ih =>
      unfold sglMap
      cases map i with
      | error cookie => exact List.not_mem_nil
      | ok addr =>
          intro h
          rcases List.mem_cons.mp h with h | h
          · exact absurd h (by simp)
          · exact ih (i + 1) h

theorem back_notMem_sglUnmap (sgl : List SwSg) (i : ℕ) : DmaOp.back ∉ (sglUnmap i sgl).2 := by
  induction sgl generalizing i with
  | nil => exact List.not_mem_nil
  | cons sg sgl ih =>
      unfold sglUnmap
      simp only
      split_ifs
      · exact List.not_mem_nil
      · intro h
        rcases List.mem_cons.mp h with h | h
        · exact absurd h (by simp)
        · exact ih (i + 1) h
      · exact ih (i + 1)

/-! ## The log of a call -/

/-- The calls of `sgl_map` for the whole list. -/
def MapCall.mapOps (c : MapCall) : List DmaOp := (sglMap c.map 0 c.sgl).2.1

/-- Those of `sgl_unmap` after it. -/
def MapCall.unmapOps (c : MapCall) : List DmaOp := (sglUnmap 0 (sglMap c.map 0 c.sgl).1).2

theorem back_notMem_mapOps (c : MapCall) : DmaOp.back ∉ c.mapOps := back_notMem_sglMap _ _ _

/-- Where the list has an entry, its page has been mapped or not. -/
theorem ofEntry_mapOps (c : MapCall) (e : ℕ) :
    ofEntry e c.mapOps
      = if e < mapCount c.map 0 c.sgl.length then mapOp c.map e else [] := by
  unfold MapCall.mapOps
  rw [ofEntry_sglMap]
  exact if_congr (by omega) rfl rfl

/-- The first entries are those mapped. -/
theorem mapOp_of_lt {map : ℕ → MapOutcome} {n e : ℕ} (i : ℕ) (h : e < mapCount map i n) :
    ∃ addr, map (i + e) = .ok addr := by
  induction n generalizing i e with
  | zero => exact absurd h (Nat.not_lt_zero _)
  | succ n ih =>
      unfold mapCount at h
      cases hm : map i with
      | error cookie =>
          rw [hm] at h
          exact absurd h (Nat.not_lt_zero _)
      | ok addr =>
          rw [hm] at h
          cases e with
          | zero => exact ⟨addr, hm⟩
          | succ e =>
              have hi : i + (e + 1) = i + 1 + e := by omega
              rw [hi]
              exact ih (i + 1) (Nat.lt_of_succ_lt_succ h)

/-- Unmapping gives back the address that was mapped. -/
theorem u64Sub_u64_add {a : ℕ} (ha : a < 2 ^ 64) (o : ℕ) : u64Sub (u64 (a + o)) o = a := by
  unfold u64Sub u64
  omega

/-- **Mapping and undoing it**: one entry is in order exactly if it is one that `sgl_unmap`
undoes. -/
theorem entry_undone {c : MapCall} {e : ℕ} {sg : SwSg} (h : c.sgl[e]? = some sg) :
    (ofEntry e (c.mapOps ++ c.unmapOps) = [] ∨
        ∃ addr, ofEntry e (c.mapOps ++ c.unmapOps) = [.map e addr, .unmap e addr]) ↔
      if e < mapCount c.map 0 c.sgl.length then
        Reaches c.sgl e ∧ ∀ addr, c.map e = .ok addr → u64 (addr + sg.offset) ≠ 0
      else
        Reaches c.sgl e → if e = mapCount c.map 0 c.sgl.length then
          ∀ cookie, c.map e = .error cookie → cookie = 0
        else sg.dmaAddr = 0 := by
  obtain ⟨sg', hget, -, hoff, hmapped, hfailed, hrest⟩ := sglMap_get c.map c.sgl 0 e sg h
  have hunmap := ofEntry_sglUnmap _ 0 e sg' hget
  rw [Nat.zero_add, reaches_congr (sglMap_pg c.map c.sgl 0) e] at hunmap
  rw [Nat.zero_add] at hmapped hfailed
  rw [ofEntry_append, ofEntry_mapOps]
  unfold MapCall.unmapOps
  by_cases hlt : e < mapCount c.map 0 c.sgl.length
  · -- the page is mapped
    obtain ⟨addr, hm, haddr⟩ := hmapped hlt
    have hop : mapOp c.map e = [.map e addr] := by rw [mapOp, hm]
    have hone : ∀ a, c.map e = .ok a → a = addr :=
      fun a ha => MapOutcome.ok.inj (ha.symm.trans hm)
    rw [if_pos hlt, if_pos hlt, hop]
    by_cases hgo : Reaches c.sgl e ∧ sg'.dmaAddr ≠ 0
    · rw [hunmap.1 hgo.1 hgo.2, haddr, hoff, u64Sub_u64_add addr.isLt]
      refine ⟨fun _ => ⟨hgo.1, fun a ha => ?_⟩, fun _ => .inr ⟨addr, rfl⟩⟩
      rw [hone a ha, ← haddr]
      exact hgo.2
    · rw [hunmap.2 (fun hr => by_contra (fun hne => hgo ⟨hr, hne⟩))]
      constructor
      · rintro (hno | ⟨a, ha⟩)
        · exact absurd hno (by simp)
        · exact absurd ha (by simp)
      · rintro ⟨hr, hne⟩
        exact absurd ⟨hr, by rw [haddr]; exact hne addr hm⟩ hgo
  · -- it is not, and must not be unmapped
    rw [if_neg hlt, if_neg hlt, List.nil_append]
    have hgoal : (ofEntry e (sglUnmap 0 (sglMap c.map 0 c.sgl).1).2 = [] ∨
        ∃ addr, ofEntry e (sglUnmap 0 (sglMap c.map 0 c.sgl).1).2 = [.map e addr, .unmap e addr]) ↔
        (Reaches c.sgl e → sg'.dmaAddr = 0) := by
      constructor
      · intro hor hr
        by_contra hne
        rw [hunmap.1 hr hne] at hor
        rcases hor with hno | ⟨a, ha⟩
        · exact absurd hno (by simp)
        · exact absurd ha (by simp)
      · exact fun hz => .inl (hunmap.2 hz)
    rw [hgoal]
    refine imp_congr_right (fun _ => ?_)
    by_cases heq : e = mapCount c.map 0 c.sgl.length
    · rw [if_pos heq]
      obtain ⟨cookie, hm, hc⟩ := hfailed heq
      rw [hc]
      constructor
      · intro hz cookie' hm'
        rw [MapOutcome.error.inj (hm'.symm.trans hm)]
        exact Fin.ext hz
      · exact fun hall => congrArg Fin.val (hall cookie hm)
    · rw [if_neg heq, hrest (by omega)]

/-- Nothing is done behind the end of the list. -/
theorem ofEntry_out {c : MapCall} {e : ℕ} (h : c.sgl.length ≤ e) :
    ofEntry e (c.mapOps ++ c.unmapOps) = [] := by
  have hle := mapCount_le c.map 0 c.sgl.length
  rw [ofEntry_append, ofEntry_mapOps, if_neg (by omega)]
  unfold MapCall.unmapOps
  exact ofEntry_sglUnmap_out _ 0 e (by rw [length_sglMap]; omega)

/-- A log that ends with giving back. -/
theorem disciplined_back {ops : List DmaOp} (h : DmaOp.back ∉ ops) :
    Disciplined (ops ++ [.back]) ↔
      ∀ i, ofEntry i ops = [] ∨ ∃ addr, ofEntry i ops = [.map i addr, .unmap i addr] := by
  have hmem : DmaOp.back ∈ ops ++ [DmaOp.back] := List.mem_append_right _ (List.mem_singleton_self _)
  have hone : ∀ i, ofEntry i (ops ++ [.back]) = ofEntry i ops := by
    intro i
    rw [ofEntry_append, ofEntry_back, List.append_nil]
  constructor
  · intro hd i
    rcases hd.paired i with hno | hpair | ⟨hnb, -⟩
    · exact .inl (hone i ▸ hno)
    · exact .inr (hone i ▸ hpair)
    · exact absurd hmem hnb
  · intro hp
    constructor
    · intro i
      rw [hone]
      rcases hp i with hno | hpair
      · exact .inl hno
      · exact .inr (.inl hpair)
    · intro pre post heq
      rcases List.eq_nil_or_concat post with hnil | ⟨init, op, rfl⟩
      · exact hnil
      · exfalso
        rw [List.concat_eq_append, ← List.cons_append, ← List.append_assoc] at heq
        have hpre := (List.append_inj' heq rfl).1
        exact h (hpre ▸ List.mem_append_right _ (.head _))

/-- **Mapping, unmapping and giving back.** -/
theorem disciplined_undo (c : MapCall) :
    Disciplined (c.mapOps ++ c.unmapOps ++ [.back]) ↔ c.Undone := by
  have hnot : DmaOp.back ∉ c.mapOps ++ c.unmapOps := by
    intro h
    rcases List.mem_append.mp h with h | h
    · exact back_notMem_mapOps c h
    · exact back_notMem_sglUnmap _ _ h
  rw [disciplined_back hnot]
  constructor
  · exact fun h e sg hget => (entry_undone hget).mp (h e)
  · intro h e
    cases hget : c.sgl[e]? with
    | none => exact .inl (ofEntry_out (List.getElem?_eq_none_iff.mp hget))
    | some sg => exact (entry_undone hget).mpr (h e sg hget)

/-- Mapping, with the buffer not yet given back. -/
theorem disciplined_mapped (c : MapCall) : Disciplined c.mapOps := by
  constructor
  · intro i
    rw [ofEntry_mapOps]
    split_ifs with hlt
    · obtain ⟨addr, hm⟩ := mapOp_of_lt 0 hlt
      rw [Nat.zero_add] at hm
      refine .inr (.inr ⟨back_notMem_mapOps c, addr, ?_⟩)
      rw [mapOp, hm]
    · exact .inl rfl
  · intro pre post heq
    have hmem : DmaOp.back ∈ c.mapOps := by
      rw [heq]
      exact List.mem_append_right _ (.head _)
    exact absurd hmem (back_notMem_mapOps c)

/-- Mapping and giving back, whatever follows. -/
theorem disciplined_leak (c : MapCall) (ops : List DmaOp) :
    Disciplined (c.mapOps ++ .back :: ops) ↔
      mapCount c.map 0 c.sgl.length = 0 ∧ ops = [] := by
  constructor
  · intro hd
    have hops := hd.last _ _ rfl
    refine ⟨?_, hops⟩
    by_contra hne
    rw [hops] at hd
    have hzero := (disciplined_back (back_notMem_mapOps c)).mp hd 0
    obtain ⟨addr, hm⟩ := mapOp_of_lt 0 (Nat.pos_of_ne_zero hne)
    rw [ofEntry_mapOps, if_pos (Nat.pos_of_ne_zero hne), mapOp, hm] at hzero
    rcases hzero with hno | ⟨a, ha⟩
    · exact absurd hno (by simp)
    · exact absurd ha (by simp)
  · rintro ⟨hk, rfl⟩
    refine (disciplined_back (back_notMem_mapOps c)).mpr (fun i => .inl ?_)
    rw [ofEntry_mapOps, hk, if_neg (Nat.not_lt_zero _)]

/-! ## Calls and courses -/

/-- The request after `sgl_map`. -/
def MapCall.mapped (c : MapCall) (needed : Bool) : MapReq :=
  { sgl := (sglMap c.map 0 c.sgl).1, unmapNeeded := needed, log := c.mapOps }

/-- Unmapping a second time does nothing. -/
theorem mapped_unmap_unmap (c : MapCall) :
    (c.mapped true).reqDone.unmap.log = c.mapOps ++ c.unmapOps := by
  show c.mapOps ++ c.unmapOps ++ (sglUnmap 0 (sglUnmap 0 (sglMap c.map 0 c.sgl).1).1).2 = _
  rw [sglUnmap_twice, List.append_nil]

theorem giveBack_log (r : MapReq) : r.giveBack.log = r.log ++ [.back] := rfl

/-- A call the queue does not take. -/
theorem enter_refused {c : MapCall} (h : ¬ c.Takes) :
    c.enter = ({ sgl := c.sgl }, some einval) := by
  unfold MapCall.enter
  simp only
  by_cases hf : c.found = true
  swap
  · rw [if_pos (by simpa using hf)]
  rw [if_neg (by rw [hf]; decide)]
  unfold MapCall.Takes at h
  rw [hf] at h
  cases hp : c.packetWrite with
  | true =>
      have hk : c.kind ≠ .stH2c := fun hk => h ⟨rfl, by rw [if_pos hp]; exact hk⟩
      rw [if_pos (by simpa using hk)]
  | false =>
      have hw : c.write = c.kind.c2h := by
        by_contra hne
        exact h ⟨rfl, by rw [if_neg (by rw [hp]; decide)]; exact hne⟩
      rw [if_neg (by simp), if_pos (by rw [hw]; cases c.kind.c2h <;> rfl)]

/-- A call it takes. -/
theorem enter_taken {c : MapCall} (h : c.Takes) :
    c.enter =
      if c.dmaMapped then ({ sgl := c.sgl }, if c.online then none else some einval)
      else if c.MapsAll then
        if c.online then (c.mapped true, none) else (c.unmapSgl (c.mapped true), some einval)
      else (c.unmapSgl (c.mapped false), some eio) := by
  obtain ⟨hf, hkind⟩ := h
  have hrv := sglMap_rv c.map c.sgl 0
  unfold MapCall.enter
  simp only
  rw [if_neg (by rw [hf]; decide)]
  -- neither of the two refusals is taken
  have h1 : ¬ (c.packetWrite && c.kind != .stH2c) = true := by
    intro hb
    rw [Bool.and_eq_true, bne_iff_ne] at hb
    rw [if_pos hb.1] at hkind
    exact hb.2 hkind
  have h2 : ¬ (!c.packetWrite && (c.write && c.kind.c2h || !c.write && !c.kind.c2h)) = true := by
    intro hb
    rw [Bool.and_eq_true, Bool.not_eq_true'] at hb
    rw [if_neg (by rw [hb.1]; decide)] at hkind
    have hdir := hb.2
    revert hkind hdir
    cases c.write <;> cases c.kind.c2h <;> decide
  rw [if_neg h1, if_neg h2]
  cases hm : c.dmaMapped with
  | true =>
      simp only [Bool.not_true, Bool.false_eq_true, if_false, lt_irrefl, if_true]
      have hsame : c.unmapSgl { sgl := c.sgl } = { sgl := c.sgl } := by
        unfold MapCall.unmapSgl
        rw [hm]
        split_ifs <;> first | rfl | contradiction
      rw [hsame]
      cases c.online <;> rfl
  | false =>
      simp only [Bool.not_false, if_true, Bool.false_eq_true, if_false]
      by_cases hall : c.MapsAll
      · have hzero : (sglMap c.map 0 c.sgl).2.2 = 0 := by rw [hrv]; exact if_pos hall
        rw [if_pos hall, hzero]
        simp only [lt_irrefl, if_false]
        cases c.online <;> rfl
      · have hneg : (sglMap c.map 0 c.sgl).2.2 = eio := by rw [hrv]; exact if_neg hall
        rw [if_neg hall, hneg, if_pos (by decide)]
        rfl

/-- With the pages mapped by the caller, or the call refused, the driver does nothing. -/
theorem life_untouched {c : MapCall} (h : c.Takes → c.dmaMapped = true) (course : Course) :
    (c.life course).log = [] ∨ (c.life course).log = [.back] := by
  by_cases ht : c.Takes
  swap
  · unfold MapCall.life
    rw [enter_refused ht]
    exact .inr rfl
  have hm := h ht
  unfold MapCall.life
  rw [enter_taken ht, if_pos hm]
  have hdone : (MapReq.reqDone { sgl := c.sgl }) = { sgl := c.sgl } := rfl
  cases c.online with
  | false => exact .inr rfl
  | true =>
      simp only [if_true]
      -- a list that is mapped already is left alone, whichever way the request ends
      cases hp : c.packetWrite with
      | true =>
          cases hfp : c.fpDone with
          | true =>
              cases course with
              | pending => exact .inl rfl
              | done error => exact .inr rfl
              | gaveUp => exact .inl rfl
          | false => cases course <;> exact .inr rfl
      | false =>
          have hsame : c.unmapSgl { sgl := c.sgl } = { sgl := c.sgl } := by
            unfold MapCall.unmapSgl
            rw [hm, hp]
            rfl
          cases hfp : c.fpDone with
          | true =>
              cases course with
              | pending => exact .inl rfl
              | done error => exact .inr rfl
              | gaveUp => exact .inl rfl
          | false =>
              cases course with
              | pending => exact .inl rfl
              | done error =>
                  refine .inr ?_
                  simp only [Bool.false_eq_true, if_false, hdone, hsame, ite_self]
                  rfl
              | gaveUp =>
                  refine .inr ?_
                  simp only [Bool.false_eq_true, if_false, hsame]
                  rfl

theorem disciplined_nil : Disciplined [] := by
  constructor
  · exact fun _ => .inl rfl
  · intro pre post heq
    exact absurd heq.symm (by simp)

/-- **The calls and courses that keep the discipline are those of `Keeps`.** -/
theorem dma_mapping_iff (c : MapCall) (course : Course) :
    Disciplined (c.life course).log ↔ c.Keeps course := by
  by_cases hdriver : c.Takes ∧ c.dmaMapped = false
  swap
  · -- the driver maps nothing
    have hno : c.Takes → c.dmaMapped = true := by
      intro ht
      cases hm : c.dmaMapped with
      | true => rfl
      | false => exact absurd ⟨ht, hm⟩ hdriver
    refine ⟨fun _ ht hm => absurd ⟨ht, hm⟩ hdriver, fun _ => ?_⟩
    rcases life_untouched hno course with hlog | hlog
    · rw [hlog]
      exact disciplined_nil
    · rw [hlog]
      exact (@disciplined_back [] List.not_mem_nil).mpr (fun _ => .inl rfl)
  obtain ⟨ht, hm⟩ := hdriver
  have hunmap : ∀ needed, c.packetWrite = false →
      (c.unmapSgl (c.mapped needed)).log = c.mapOps ++ c.unmapOps := by
    intro needed hp
    unfold MapCall.unmapSgl
    rw [hp, hm]
    rfl
  have hkeeps : ∀ {p : Prop}, (c.Keeps course ↔ p) ↔
      (((¬ c.MapsAll → if c.packetWrite then mapCount c.map 0 c.sgl.length = 0 else c.Undone) ∧
        (c.MapsAll → c.online = false → c.Undone) ∧
        (c.MapsAll → c.online = true → if c.packetWrite ∧ c.fpDone = false then c.sgl = []
          else match course with
            | .pending => True
            | .done _ => c.Undone
            | .gaveUp => c.fpDone = false → c.Undone)) ↔ p) := by
    intro p
    unfold MapCall.Keeps
    rw [forall_prop_of_true ht, forall_prop_of_true hm]
  unfold MapCall.life
  rw [enter_taken ht, if_neg (show ¬ c.dmaMapped = true by rw [hm]; decide), Iff.comm, hkeeps]
  by_cases hall : c.MapsAll
  swap
  · -- a page cannot be mapped
    rw [if_neg hall]
    simp only [hall, not_false_eq_true, true_imp_iff, false_imp_iff, and_true]
    rw [giveBack_log]
    cases hp : c.packetWrite with
    | true =>
        have hlog : (c.unmapSgl (c.mapped false)).log = c.mapOps := by
          unfold MapCall.unmapSgl
          rw [hp]
          rfl
        rw [hlog, if_pos rfl]
        exact ((disciplined_leak c []).trans (and_iff_left rfl)).symm
    | false =>
        rw [hunmap false hp, if_neg (by decide)]
        exact (disciplined_undo c).symm
  rw [if_pos hall]
  simp only [hall, not_true_eq_false, true_imp_iff, false_imp_iff, true_and]
  cases hon : c.online with
  | false =>
      -- the queue is not online
      simp only [Bool.false_eq_true, if_false, true_imp_iff, false_imp_iff, and_true]
      rw [giveBack_log]
      have hlog : (c.unmapSgl (c.mapped true)).log = c.mapOps ++ c.unmapOps := by
        cases hp : c.packetWrite with
        | true =>
            unfold MapCall.unmapSgl
            rw [hp]
            rfl
        | false => exact hunmap true hp
      rw [hlog]
      exact (disciplined_undo c).symm
  | true =>
      simp only [if_true, Bool.true_eq_false, false_imp_iff, true_imp_iff, true_and]
      have hempty : c.sgl = [] ↔ mapCount c.map 0 c.sgl.length = 0 := by
        unfold MapCall.MapsAll at hall
        rw [hall, List.length_eq_zero_iff]
      cases hp : c.packetWrite with
      | true =>
          cases hfp : c.fpDone with
          | true =>
              simp only [if_true, Bool.true_eq_false, and_false, if_false, false_imp_iff]
              cases course with
              | pending => exact iff_of_true trivial (disciplined_mapped c)
              | done error => exact (disciplined_undo c).symm
              | gaveUp => exact iff_of_true trivial (disciplined_mapped c)
          | false =>
              simp only [if_true, and_true, Bool.false_eq_true, if_false]
              rw [hempty]
              cases course with
              | pending => exact ((disciplined_leak c []).trans (and_iff_left rfl)).symm
              | done error =>
                  have hlog : (c.mapped true).giveBack.reqDone.log
                      = c.mapOps ++ .back :: c.unmapOps := by
                    show c.mapOps ++ [.back] ++ c.unmapOps = _
                    rw [List.append_assoc]
                    rfl
                  refine Iff.trans ?_ (by rw [hlog])
                  rw [disciplined_leak]
                  refine ⟨fun hk => ⟨hk, ?_⟩, fun hk => hk.1⟩
                  unfold MapCall.unmapOps
                  rw [hempty.mpr hk]
                  rfl
              | gaveUp => exact ((disciplined_leak c []).trans (and_iff_left rfl)).symm
      | false =>
          simp only [Bool.false_eq_true, false_and, if_false]
          cases hfp : c.fpDone with
          | true =>
              simp only [if_true, Bool.true_eq_false, false_imp_iff]
              cases course with
              | pending => exact iff_of_true trivial (disciplined_mapped c)
              | done error => exact (disciplined_undo c).symm
              | gaveUp => exact iff_of_true trivial (disciplined_mapped c)
          | false =>
              simp only [Bool.false_eq_true, if_false, true_imp_iff]
              cases course with
              | pending => exact iff_of_true trivial (disciplined_mapped c)
              | done error =>
                  have hlog : ((if error ≠ 0 then c.unmapSgl (c.mapped true).reqDone
                      else (c.mapped true).reqDone).giveBack).log
                      = c.mapOps ++ c.unmapOps ++ [.back] := by
                    rw [giveBack_log]
                    split_ifs
                    · have hagain : c.unmapSgl (c.mapped true).reqDone
                          = (c.mapped true).reqDone.unmap := by
                        unfold MapCall.unmapSgl
                        rw [hp, hm]
                        rfl
                      rw [hagain, mapped_unmap_unmap]
                    · rfl
                  simp only
                  rw [hlog]
                  exact (disciplined_undo c).symm
              | gaveUp =>
                  simp only
                  rw [giveBack_log, hunmap true hp]
                  exact (disciplined_undo c).symm

/-- Two pages of an H2C request, of which `pci_map_page` maps the first at 4096 and the second as
`second` says. -/
def twoPages (packetWrite fpDone : Bool) (second : MapOutcome) : MapCall where
  packetWrite := packetWrite
  kind := .stH2c
  write := true
  fpDone := fpDone
  sgl := [⟨1, 0, 4096, 0⟩, ⟨2, 0, 4096, 0⟩]
  map := fun i => if i = 0 then .ok 4096 else second

/-- `DMA_MAPPING_ERROR`. -/
def dmaMappingError : Fin (2 ^ 64) := 0xFFFFFFFFFFFFFFFF

/-- **Where the discipline ends.**  The second page cannot be mapped: `qdma_request_submit` unmaps
the error value, `qdma_queue_packet_write` leaves the first page mapped.  Without `fp_done` the
latter returns while both pages are mapped. -/
theorem dma_mapping_off :
    ¬ Disciplined ((twoPages false true (.error dmaMappingError)).life .pending).log ∧
      ¬ Disciplined ((twoPages true true (.error dmaMappingError)).life .pending).log ∧
      ¬ Disciplined ((twoPages true false (.ok 8192)).life .pending).log := by
  refine ⟨fun h => ?_, fun h => ?_, fun h => ?_⟩
  · have hlog : ((twoPages false true (.error dmaMappingError)).life .pending).log
        = [.map 0 4096, .unmap 0 4096, .unmap 1 0xFFFFFFFFFFFFFFFF, .back] := by decide +kernel
    rw [hlog] at h
    rcases h.paired 1 with hno | ⟨addr, hpair⟩ | ⟨-, addr, hmap⟩
    · exact absurd hno (by decide)
    · exact absurd hpair (by simp [ofEntry])
    · exact absurd hmap (by simp [ofEntry])
  · have hlog : ((twoPages true true (.error dmaMappingError)).life .pending).log
        = [.map 0 4096, .back] := by decide +kernel
    rw [hlog] at h
    rcases h.paired 0 with hno | ⟨addr, hpair⟩ | ⟨hnb, -⟩
    · exact absurd hno (by decide)
    · exact absurd hpair (by simp [ofEntry])
    · exact absurd hnb (by decide)
  · have hlog : ((twoPages true false (.ok 8192)).life .pending).log
        = [.map 0 4096, .map 1 8192, .back] := by decide +kernel
    rw [hlog] at h
    rcases h.paired 0 with hno | ⟨addr, hpair⟩ | ⟨hnb, -⟩
    · exact absurd hno (by decide)
    · exact absurd hpair (by simp [ofEntry])
    · exact absurd hnb (by decide)

end Qdma
