/-
# Device indices

`xdev_list_add` gives a new device the index after that of the last one on the list, in a `u8`.
Here devices are opened and closed in any order, and `device_indices_unique` says when the devices
that are open have indices of their own, by which `xdev_find_by_idx` finds them: as long as the
index that comes next is not in use.

It may be, with two devices open: `device_index_shared` keeps the first device open while others
come and go, until the index is 0 again.
-/
import Qdma.Opening

namespace Qdma

open LockTrace Exec

/-! ## The list of devices -/

/-- `xdev_find_by_idx`. -/
def xdevFindByIdx (list : List ListedXdev) (idx : ℤ) : Option ListedXdev :=
  list.find? (fun x => (x.idx : ℤ) == idx)

/-- The devices of a module: those on the list, and the memory of each. -/
structure XdevWorld where
  list : List ListedXdev
  dev : ℕ → XlnxDmaDev

/-- A call that opens a device, or one that closes it; the kernel answers as in `OpenEnv`. -/
inductive XdevOp where
  | openDev (modName : Option String) (conf : Option QdmaDevConf) (env : OpenEnv)
  | closeDev (pdev : Option PciDev) (hndl : ℕ) (env : OpenEnv)

/-- The call of `qdma_device_open` that finds the devices of `list`. -/
abbrev openCallOn (list : List ListedXdev) (modName : Option String) (conf : Option QdmaDevConf)
    (env : OpenEnv) : OpenCall :=
  { modName := modName, conf := conf, list := list, env := env }

/-- `qdma_device_close`, on the device `x` of the list; a `pdev` that is null is no device's. -/
def qdmaDeviceClose (s : OpenState) (e : OpenEnv) (pdev : Option PciDev) (hndl : ℕ) : OpenState :=
  match pdev with
  | none => s
  | some pdev =>
      if hndl = 0 then s
      else if xdevCheckHndl s pdev hndl < 0 then s
      else
        let s := xdevUnmapBars (qdmaDeviceOffline s e pdev hndl)
        { s with list := s.list.eraseP (fun x => x.addr == hndl && x.pdev == pdev) }.act
          [.unlock .regions, .unlock .device, .unlock .xdev]

/-- The devices after a call of `qdma_device_open`. -/
def XdevWorld.opened (w : XdevWorld) (r : OpenResult) : XdevWorld where
  list := r.list
  dev :=
    match r.dev with
    | none => w.dev
    | some x => Function.update w.dev r.devHndl x

/-- A call on the devices of the module; `none` where it follows a null pointer or divides by 0. -/
def XdevOp.run (w : XdevWorld) : XdevOp → Option XdevWorld
  | .openDev modName conf env =>
      (openCallOn w.list modName conf env).qdmaDeviceOpen.map w.opened
  | .closeDev pdev hndl env =>
      let s := qdmaDeviceClose { list := w.list, xdev := w.dev hndl, numVf := env.numVf, log := [] }
        env pdev hndl
      some { list := s.list, dev := Function.update w.dev hndl s.xdev }

/-- The same, where nothing runs any more after such a call. -/
def XdevOp.step (w : Option XdevWorld) (op : XdevOp) : Option XdevWorld := w.bind (fun w => op.run w)

/-- **The devices that are open have indices of their own**, by which they are found. -/
structure IdxUnique (list : List ListedXdev) : Prop where
  distinct : (list.map ListedXdev.idx).Nodup
  found : ∀ d ∈ list, xdevFindByIdx list d.idx = some d

/-- No device that is open has the index that comes next, where a device is to be had. -/
def XdevOp.FreshIdx (list : List ListedXdev) : XdevOp → Prop
  | .openDev modName conf env =>
      ∀ k, conf = some k → (openCallOn list modName conf env).Attaches k →
        nextIdx list ∉ list.map ListedXdev.idx
  | .closeDev _ _ _ => True

/-! ## Closing -/

theorem qdmaDeviceCleanup_list (s : OpenState) : (qdmaDeviceCleanup s).list = s.list := by
  unfold qdmaDeviceCleanup
  cases s.xdev.devPriv with
  | none => rfl
  | some _ =>
      simp only
      split_ifs
      · rfl
      · rfl

theorem qdmaDeviceOffline_list (s : OpenState) (e : OpenEnv) (pdev : PciDev) (hndl : ℕ) :
    (qdmaDeviceOffline s e pdev hndl).list = s.list := by
  unfold qdmaDeviceOffline
  by_cases h0 : hndl = 0
  · rw [if_pos h0]
  rw [if_neg h0]
  by_cases hchk : xdevCheckHndl s pdev hndl < 0
  · rw [if_pos hchk]
  rw [if_neg hchk, qdmaDeviceCleanup_list]
  split_ifs
  · exact (sriovDisable_list _).1
  · rfl

theorem xdevUnmapBars_list (s : OpenState) : (xdevUnmapBars s).list = s.list := by
  unfold xdevUnmapBars
  split_ifs
  · rfl
  · rfl

/-- A device that is closed leaves the list; nothing else does. -/
theorem qdmaDeviceClose_sublist (s : OpenState) (e : OpenEnv) (pdev : Option PciDev) (hndl : ℕ) :
    (qdmaDeviceClose s e pdev hndl).list.Sublist s.list := by
  unfold qdmaDeviceClose
  cases pdev with
  | none => exact List.Sublist.refl _
  | some pdev =>
      simp only
      split_ifs
      · exact List.Sublist.refl _
      · exact List.Sublist.refl _
      · show (List.eraseP _ (xdevUnmapBars (qdmaDeviceOffline s e pdev hndl)).list).Sublist _
        rw [xdevUnmapBars_list, qdmaDeviceOffline_list]
        exact List.eraseP_sublist

/-- The device of `pdev`, with its handle. -/
theorem qdmaDeviceClose_list {s : OpenState} (e : OpenEnv) {pdev : PciDev} {x : ListedXdev}
    (hx : xdevFindByPdev s.list pdev = some x) (h0 : x.addr ≠ 0) :
    (qdmaDeviceClose s e (some pdev) x.addr).list =
      s.list.eraseP (fun y => y.addr == x.addr && y.pdev == pdev) := by
  have hchk : xdevCheckHndl s pdev x.addr = 0 := by
    unfold xdevCheckHndl
    rw [hx]
    exact if_neg (not_not.mpr rfl)
  unfold qdmaDeviceClose
  simp only
  rw [if_neg h0, hchk, if_neg (lt_irrefl _)]
  show List.eraseP _ (xdevUnmapBars (qdmaDeviceOffline s e pdev x.addr)).list = _
  rw [xdevUnmapBars_list, qdmaDeviceOffline_list]

/-! ## One call -/

/-- **What a call does to the list**: it appends a device with the index that comes next, or it
takes devices off. -/
theorem XdevOp.run_cases {w w' : XdevWorld} {op : XdevOp} (h : op.run w = some w') :
    (∃ modName k env entry, op = .openDev modName (some k) env ∧
        (openCallOn w.list modName (some k) env).Attaches k ∧ w'.list = w.list ++ [entry] ∧
        entry.idx = nextIdx w.list) ∨
      (op.FreshIdx w.list ∧ w'.list.Sublist w.list) := by
  cases op with
  | closeDev pdev hndl env =>
      obtain rfl := Option.some.inj h
      exact .inr ⟨trivial, qdmaDeviceClose_sublist _ env pdev hndl⟩
  | openDev modName conf env =>
      obtain ⟨r, hr, hw⟩ := Option.map_eq_some_iff.mp h
      have hlist : w'.list = r.list := congrArg XdevWorld.list hw.symm
      cases conf with
      | none => exact absurd hr.symm (Option.some_ne_none r)
      | some k =>
          have hsame : ∀ {r' : OpenResult},
              (openCallOn w.list modName (some k) env).qdmaDeviceOpen = some r' → r = r' :=
            fun h' => Option.some.inj (hr.symm.trans h')
          have hno : ∀ {r' : OpenResult},
              (openCallOn w.list modName (some k) env).qdmaDeviceOpen = some r' →
              r'.list = w.list → ¬ (openCallOn w.list modName (some k) env).Attaches k →
              (XdevOp.openDev modName (some k) env).FreshIdx w.list ∧ w'.list.Sublist w.list := by
            intro r' hopen hkept hnot
            refine ⟨fun k' hk hat => ?_, ?_⟩
            · obtain rfl := Option.some.inj hk
              exact absurd hat hnot
            · rw [hlist, hsame hopen, hkept]
          cases OpenCall.outcome (c := openCallOn w.list modName (some k) env) rfl with
          | attached r' entry hat hopen hrv hall happ haddr hpdev hidx =>
              refine .inl ⟨modName, k, env, entry, rfl, hat, ?_, hidx⟩
              rw [hlist, hsame hopen, happ]
          | requested r' hc hok hqs hv hopen hkept hbal =>
              exact .inr (hno hopen hkept (fun hat => hat.queues hqs))
          | noMemory r' hc hmem hopen hkept =>
              exact .inr (hno hopen hkept (fun hat => hat.alloc hmem))
          | noPfs hc hb hpfs hopen => exact absurd (hr.symm.trans hopen) (Option.some_ne_none r)
          | nothing r' hnot hu hopen hn => exact .inr (hno hopen hn.list hnot)

/-- A call that is to give a device gives it. -/
theorem XdevOp.run_attaches {w : XdevWorld} {modName : Option String} {k : QdmaDevConf}
    {env : OpenEnv} (h : (openCallOn w.list modName (some k) env).Attaches k) :
    ∃ w' entry, (XdevOp.openDev modName (some k) env).run w = some w' ∧
      w'.list = w.list ++ [entry] ∧ entry.addr = env.xdevMem ∧ k.pdev = some entry.pdev ∧
      entry.idx = nextIdx w.list := by
  cases OpenCall.outcome (c := openCallOn w.list modName (some k) env) rfl with
  | attached r entry hat hopen hrv hall happ haddr hpdev hidx =>
      exact ⟨_, entry, congrArg (Option.map w.opened) hopen, happ, haddr, hpdev, hidx⟩
  | requested r hc hok hqs => exact absurd hqs h.queues
  | noMemory r hc hmem => exact absurd hmem h.alloc
  | noPfs hc hb hpfs => exact absurd hpfs (h.attributes hb).1
  | nothing r hnot => exact absurd h hnot

/-! ## Indices -/

/-- The devices with indices of their own are found by them. -/
theorem idxUnique_iff {list : List ListedXdev} :
    IdxUnique list ↔ (list.map ListedXdev.idx).Nodup := by
  refine ⟨IdxUnique.distinct, fun h => ⟨h, ?_⟩⟩
  unfold xdevFindByIdx
  induction list with
  | nil => exact fun d hd => absurd hd List.not_mem_nil
  | cons x list ih =>
      rw [List.map_cons, List.nodup_cons] at h
      rintro d hd
      rcases List.mem_cons.mp hd with rfl | htail
      · exact List.find?_cons_of_pos (beq_self_eq_true _)
      · rw [List.find?_cons_of_neg]
        · exact ih h.2 d htail
        · intro heq
          rw [beq_iff_eq, Nat.cast_inj] at heq
          exact h.1 (heq ▸ List.mem_map_of_mem htail)

/-- A device more. -/
theorem idxUnique_append {list : List ListedXdev} (h : IdxUnique list) (entry : ListedXdev) :
    IdxUnique (list ++ [entry]) ↔ entry.idx ∉ list.map ListedXdev.idx := by
  rw [idxUnique_iff, List.map_append, List.map_singleton, List.nodup_append]
  constructor
  · rintro ⟨-, -, hne⟩ hmem
    exact hne _ hmem _ List.mem_cons_self rfl
  · intro hnot
    refine ⟨h.distinct, List.nodup_singleton _, ?_⟩
    rintro a ha b hb rfl
    exact hnot (List.mem_singleton.mp hb ▸ ha)

/-- Unless the devices are gone, their indices are unique. -/
def UniqueIn (w : Option XdevWorld) : Prop := ∀ w', w = some w' → IdxUnique w'.list

/-- Unless the devices are gone, the index that comes next is free where it is given. -/
def FreshIn (w : Option XdevWorld) (op : XdevOp) : Prop :=
  ∀ w', w = some w' → op.FreshIdx w'.list

/-- **One call** leaves the indices unique just when the index it gives is free. -/
theorem uniqueIn_step {w : Option XdevWorld} {op : XdevOp} (h : UniqueIn w) :
    UniqueIn (XdevOp.step w op) ↔ FreshIn w op := by
  cases w with
  | none =>
      exact iff_of_true (fun w' h => absurd h.symm (Option.some_ne_none w'))
        (fun w' h => absurd h.symm (Option.some_ne_none w'))
  | some w =>
  have hw : IdxUnique w.list := h w rfl
  constructor
  · intro hstep w₁ heq
    obtain rfl := Option.some.inj heq
    cases op with
    | closeDev pdev hndl env => trivial
    | openDev modName conf env =>
        rintro k rfl hat
        obtain ⟨w', entry, hrun, hlist, -, -, hidx⟩ := XdevOp.run_attaches hat
        have happ := hstep w' hrun
        rw [hlist, idxUnique_append hw, hidx] at happ
        exact happ
  · intro hfresh w' hrun
    obtain ⟨modName, k, env, entry, rfl, hat, hlist, hidx⟩ | ⟨-, hsub⟩ := XdevOp.run_cases hrun
    · rw [hlist, idxUnique_append hw, hidx]
      exact hfresh w rfl k rfl hat
    · rw [idxUnique_iff]
      exact (idxUnique_iff.mp hw).sublist (hsub.map _)

/-- **Device indices are unique** in every state of a run, just when no device is opened while the
index that comes next is in use.  The run starts without devices. -/
theorem device_indices_unique (dev : ℕ → XlnxDmaDev) (ops : List XdevOp) :
    (∀ pre post, ops = pre ++ post →
        UniqueIn (pre.foldl XdevOp.step (some { list := [], dev := dev }))) ↔
      ∀ pre op post, ops = pre ++ op :: post →
        FreshIn (pre.foldl XdevOp.step (some { list := [], dev := dev })) op := by
  have hnil : UniqueIn (some { list := [], dev := dev }) := by
    intro w heq
    obtain rfl := Option.some.inj heq
    exact idxUnique_iff.mpr List.nodup_nil
  rw [always_iff (P := fun _ => True) (fun w op hw _ => uniqueIn_step hw) (fun _ _ => trivial)]
  exact and_iff_right hnil

/-! ## Few devices, over the life of the module -/

/-- Whether a call opens a device. -/
def XdevOp.opens : XdevOp → Bool
  | .openDev _ _ _ => true
  | .closeDev _ _ _ => false

/-- The indices rise along the list, and are below `n`. -/
structure IdxBelow (list : List ListedXdev) (n : ℕ) : Prop where
  rise : (list.map ListedXdev.idx).Pairwise (· < ·)
  below : ∀ x ∈ list, x.idx < n

/-- The index that comes next is above those in use, while there are indices left. -/
theorem IdxBelow.lt_nextIdx {list : List ListedXdev} {n : ℕ} (h : IdxBelow list n) (hn : n < 2 ^ 8) :
    nextIdx list ≤ n ∧ ∀ x ∈ list, x.idx < nextIdx list := by
  rcases List.eq_nil_or_concat list with rfl | ⟨init, last, rfl⟩
  · exact ⟨n.zero_le, fun x hx => absurd hx List.not_mem_nil⟩
  rw [List.concat_eq_append] at h ⊢
  have hlast : last.idx < n := h.below last (List.mem_append_right _ List.mem_cons_self)
  have hnext : nextIdx (init ++ [last]) = last.idx + 1 := by
    unfold nextIdx
    rw [List.getLast?_append, List.getLast?_singleton, Option.some_or]
    exact Nat.mod_eq_of_lt (by omega)
  rw [hnext]
  refine ⟨hlast, fun x hx => ?_⟩
  rcases List.mem_append.mp hx with hinit | hx
  · have hrise := h.rise
    rw [List.map_append, List.map_singleton, List.pairwise_append] at hrise
    exact (hrise.2.2 _ (List.mem_map_of_mem hinit) _ List.mem_cons_self).trans (Nat.lt_succ_self _)
  · rw [List.mem_singleton.mp hx]
    exact Nat.lt_succ_self _

/-- One call more, while there are indices left. -/
theorem IdxBelow.run {w w' : XdevWorld} {op : XdevOp} {n : ℕ} (h : IdxBelow w.list n)
    (hn : n + op.opens.toNat ≤ 2 ^ 8) (hrun : op.run w = some w') :
    IdxBelow w'.list (n + op.opens.toNat) := by
  obtain ⟨modName, k, env, entry, rfl, -, hlist, hidx⟩ | ⟨-, hsub⟩ := XdevOp.run_cases hrun
  · obtain ⟨hle, hlt⟩ := h.lt_nextIdx hn
    rw [hlist]
    constructor
    · rw [List.map_append, List.map_singleton, List.pairwise_append]
      refine ⟨h.rise, List.pairwise_singleton _ _, fun i hi j hj => ?_⟩
      obtain ⟨x, hx, rfl⟩ := List.mem_map.mp hi
      rw [List.mem_singleton.mp hj, hidx]
      exact hlt x hx
    · intro x hx
      rcases List.mem_append.mp hx with hx | hx
      · exact (h.below x hx).trans_le (Nat.le_add_right _ _)
      · rw [List.mem_singleton.mp hx, hidx]
        exact Nat.lt_succ_of_le hle
  · exact ⟨h.rise.sublist (hsub.map _),
      fun x hx => (h.below x (hsub.subset hx)).trans_le (Nat.le_add_right _ _)⟩

/-- **The first 256 openings** give indices of their own, whatever is closed in between. -/
theorem indices_unique_of_few_opens (dev : ℕ → XlnxDmaDev) (ops : List XdevOp)
    (hfew : ops.countP XdevOp.opens ≤ 2 ^ 8) :
    UniqueIn (ops.foldl XdevOp.step (some { list := [], dev := dev })) := by
  suffices h : ∀ w, ops.foldl XdevOp.step (some { list := [], dev := dev }) = some w →
      IdxBelow w.list (ops.countP XdevOp.opens) from
    fun w heq => idxUnique_iff.mpr ((h w heq).rise.imp Nat.ne_of_lt)
  induction ops using List.reverseRecOn with
  | nil =>
      intro w heq
      obtain rfl := Option.some.inj heq
      exact ⟨List.Pairwise.nil, fun x hx => absurd hx List.not_mem_nil⟩
  | append_singleton ops op ih =>
      have hcount : (ops ++ [op]).countP XdevOp.opens =
          ops.countP XdevOp.opens + op.opens.toNat := by
        rw [List.countP_append, List.countP_singleton]
        cases op.opens with
        | false => rfl
        | true => rfl
      rw [hcount] at hfew ⊢
      intro w heq
      rw [List.foldl_append, List.foldl_cons, List.foldl_nil] at heq
      obtain ⟨w₀, hw₀, hrun⟩ := Option.bind_eq_some_iff.mp heq
      exact (ih ((Nat.le_add_right _ _).trans hfew) w₀ hw₀).run hfew hrun

/-- A call opens one device at most. -/
theorem length_le_calls (dev : ℕ → XlnxDmaDev) (ops : List XdevOp) {w : XdevWorld}
    (hw : ops.foldl XdevOp.step (some { list := [], dev := dev }) = some w) :
    w.list.length ≤ ops.length := by
  induction ops using List.reverseRecOn generalizing w with
  | nil =>
      obtain rfl := Option.some.inj hw
      exact le_rfl
  | append_singleton ops op ih =>
      rw [List.foldl_append, List.foldl_cons, List.foldl_nil] at hw
      obtain ⟨w₀, hw₀, hrun⟩ := Option.bind_eq_some_iff.mp hw
      rw [List.length_append, List.length_singleton]
      obtain ⟨-, -, -, entry, -, -, hlist, -⟩ | ⟨-, hsub⟩ := XdevOp.run_cases hrun
      · rw [hlist, List.length_append, List.length_singleton]
        exact Nat.succ_le_succ (ih hw₀)
      · exact hsub.length_le.trans ((ih hw₀).trans (Nat.le_succ _))

/-! ## The index that comes round again -/

/-- A card in slot `i`. -/
def card (i : ℕ) : PciDev := { id := i, name := toString i }

/-- The card in slot `i` comes. -/
def plug (i : ℕ) : XdevOp :=
  .openDev (some "qdma") (some { pdev := some (card i) }) { pfAnswers with xdevMem := i + 1 }

/-- And goes. -/
def unplug (i : ℕ) : XdevOp := .closeDev (some (card i)) (i + 1) pfAnswers

/-- The slot in use after `n` changes, 1 or 2. -/
def slotAfter (n : ℕ) : ℕ := 1 + n % 2

theorem slotAfter_ne_zero (n : ℕ) : slotAfter n ≠ 0 := by
  unfold slotAfter
  omega

theorem slotAfter_succ_ne (n : ℕ) : slotAfter n ≠ slotAfter (n + 1) := by
  unfold slotAfter
  omega

/-- One card stays in slot 0; the other changes its slot `n` times. -/
def changes : ℕ → List XdevOp
  | 0 => [plug 0, plug 1]
  | n + 1 => changes n ++ [plug (slotAfter (n + 1))] ++ [unplug (slotAfter n)]

/-- The device of the card in slot `i`. -/
def cardXdev (i idx : ℕ) : ListedXdev := { addr := i + 1, pdev := card i, idx := idx }

theorem plug_attaches {list : List ListedXdev} {i : ℕ} (h : xdevFindByPdev list (card i) = none) :
    (openCallOn list (some "qdma") (some { pdev := some (card i) })
      { pfAnswers with xdevMem := i + 1 }).Attaches { pdev := some (card i) } := by
  refine ⟨⟨⟨⟨Option.some_ne_none _, ⟨card i, rfl, h⟩, rfl, rfl, rfl⟩, Nat.succ_ne_zero i, rfl,
    fun _ => ?_⟩, fun _ => ⟨?_, .inl ?_⟩⟩, fun _ => ⟨?_, fun _ _ => rfl⟩, ?_, rfl, ?_⟩
  · show pfAnswers.configId &&& 0xFFFF0000 = 0x1FD30000
    decide
  · show pfAnswers.attrs.numPfs ≠ 0
    decide
  · show pfAnswers.attrs.mmModeEn = true
    decide
  · show ¬ pciEnableMsixExact (pfAnswers.vecs {pdev := none}) pfAnswers.enableMsix < 0
    decide
  · show pfAnswers.attrs.qsetsMax ≠ 0
    decide
  · rintro (⟨⟨-, hmax, -⟩, -⟩ | ⟨hvf, -⟩)
    · exact hmax rfl
    · exact QdmaBuild.noConfusion hvf

/-- A card that comes. -/
theorem run_plug {w : XdevWorld} {i : ℕ} (h : xdevFindByPdev w.list (card i) = none) :
    ∃ w', (plug i).run w = some w' ∧ w'.list = w.list ++ [cardXdev i (nextIdx w.list)] := by
  obtain ⟨w', entry, hrun, hlist, haddr, hpdev, hidx⟩ := XdevOp.run_attaches (plug_attaches h)
  refine ⟨w', hrun, ?_⟩
  rw [hlist, ← hidx]
  obtain ⟨addr, pdev, idx⟩ := entry
  obtain rfl := Option.some.inj hpdev
  obtain rfl := haddr
  rfl

/-- A card that goes. -/
theorem run_unplug {w : XdevWorld} {i idx : ℕ}
    (h : xdevFindByPdev w.list (card i) = some (cardXdev i idx)) :
    ∃ w', (unplug i).run w = some w' ∧
      w'.list = w.list.eraseP (fun y => y.addr == i + 1 && y.pdev == card i) := by
  refine ⟨_, rfl, ?_⟩
  exact qdmaDeviceClose_list (s := { list := w.list, xdev := w.dev (i + 1), numVf := 0, log := [] })
    pfAnswers h (Nat.succ_ne_zero i)

/-- A card changes from slot `i` to slot `j`. -/
theorem step_change {w : XdevWorld} {i j idx : ℕ} (hlist : w.list = [cardXdev 0 0, cardXdev i idx])
    (hi : i ≠ 0) (hj : j ≠ 0) (hij : i ≠ j) :
    ∃ w₁ w₂, XdevOp.step (some w) (plug j) = some w₁ ∧ w₁.list.length = 3 ∧
      XdevOp.step (some w₁) (unplug i) = some w₂ ∧
      w₂.list = [cardXdev 0 0, cardXdev j ((idx + 1) % 2 ^ 8)] := by
  have hne : ∀ a b idx', a ≠ b → ((cardXdev a idx').pdev == card b) = false := by
    intro a b idx' hab
    exact beq_eq_false_iff_ne.mpr (fun h => hab (congrArg PciDev.id h))
  have hnew : xdevFindByPdev w.list (card j) = none := by
    unfold xdevFindByPdev
    rw [hlist, List.find?_cons, hne 0 j 0 (Ne.symm hj), List.find?_cons, hne i j idx hij,
      List.find?_nil]
  obtain ⟨w₁, h₁, hl₁⟩ := run_plug hnew
  have hnext : nextIdx w.list = (idx + 1) % 2 ^ 8 := by
    rw [hlist]
    rfl
  rw [hnext, hlist] at hl₁
  have hfind : xdevFindByPdev w₁.list (card i) = some (cardXdev i idx) := by
    unfold xdevFindByPdev
    rw [hl₁, List.cons_append, List.find?_cons, hne 0 i 0 (Ne.symm hi)]
    exact List.find?_cons_of_pos (beq_self_eq_true (card i))
  obtain ⟨w₂, h₂, hl₂⟩ := run_unplug hfind
  refine ⟨w₁, w₂, h₁, by rw [hl₁]; rfl, h₂, ?_⟩
  rw [hl₂, hl₁, List.cons_append, List.eraseP_cons_of_neg, List.cons_append,
    List.eraseP_cons_of_pos]
  · rfl
  · exact Bool.and_eq_true_iff.mpr ⟨beq_self_eq_true (i + 1), beq_self_eq_true (card i)⟩
  · rw [hne 0 i 0 (Ne.symm hi), Bool.and_false]
    exact Bool.false_ne_true

/-- **After `n` changes** the second device has index `n + 1`, in 8 bits. -/
theorem foldl_changes (dev : ℕ → XlnxDmaDev) (n : ℕ) :
    ∃ w, (changes n).foldl XdevOp.step (some { list := [], dev := dev }) = some w ∧
      w.list = [cardXdev 0 0, cardXdev (slotAfter n) ((n + 1) % 2 ^ 8)] := by
  induction n with
  | zero =>
      obtain ⟨w₁, h₁, hl₁⟩ := run_plug (w := { list := [], dev := dev }) (i := 0) rfl
      obtain ⟨w₂, h₂, hl₂⟩ := run_plug (w := w₁) (i := 1) (by rw [hl₁]; rfl)
      refine ⟨w₂, ?_, ?_⟩
      · show XdevOp.step ((plug 0).run _) (plug 1) = some w₂
        rw [h₁]
        exact h₂
      · rw [hl₂, hl₁]
        rfl
  | succ n ih =>
      obtain ⟨w, hw, hlist⟩ := ih
      obtain ⟨w₁, w₂, h₁, -, h₂, hl₂⟩ := step_change (j := slotAfter (n + 1)) hlist
        (slotAfter_ne_zero n) (slotAfter_ne_zero _) (slotAfter_succ_ne n)
      refine ⟨w₂, ?_, ?_⟩
      · show ((changes n ++ [plug (slotAfter (n + 1))]) ++ [unplug (slotAfter n)]).foldl _ _ = _
        rw [List.foldl_append, List.foldl_append, hw, List.foldl_cons, List.foldl_nil,
          List.foldl_cons, List.foldl_nil, h₁]
        exact h₂
      · rw [hl₂, Nat.mod_add_mod]

/-- There are never more than three devices. -/
theorem length_changes (dev : ℕ → XlnxDmaDev) (n : ℕ) {pre : List XdevOp} (h : pre <+: changes n)
    {w : XdevWorld} (hw : pre.foldl XdevOp.step (some { list := [], dev := dev }) = some w) :
    w.list.length ≤ 3 := by
  induction n with
  | zero =>
      have hlen : pre.length ≤ 2 := h.length_le
      have hle := length_le_calls dev pre hw
      omega
  | succ n ih =>
      obtain ⟨w₀, hw₀, hlist⟩ := foldl_changes dev n
      obtain ⟨w₁, w₂, h₁, hl₁, -, -⟩ := step_change (j := slotAfter (n + 1)) hlist
        (slotAfter_ne_zero n) (slotAfter_ne_zero _) (slotAfter_succ_ne n)
      rcases List.prefix_concat_iff.mp h with rfl | h
      · obtain ⟨w₃, hw₃, hl₃⟩ := foldl_changes dev (n + 1)
        obtain rfl := Option.some.inj (hw.symm.trans hw₃)
        rw [hl₃]
        exact Nat.le_succ 2
      rcases List.prefix_concat_iff.mp h with rfl | h
      · rw [List.foldl_append, hw₀, List.foldl_cons, List.foldl_nil, h₁] at hw
        obtain rfl := Option.some.inj hw
        exact hl₁.le
      · exact ih h

/-- **A device index in use is given again.**  The first card stays, and the other one changes its
slot 255 times, so that there are never more than three devices; then both have index 0, and
`xdev_find_by_idx` finds only the first. -/
theorem device_index_shared :
    (∀ pre post, changes 255 = pre ++ post → ∀ w,
        pre.foldl XdevOp.step (some { list := [], dev := fun _ => { conf := { pdev := none } } }) =
          some w → w.list.length ≤ 256) ∧
      ∃ w, (changes 255).foldl XdevOp.step
          (some { list := [], dev := fun _ => { conf := { pdev := none } } }) = some w ∧
        w.list.map ListedXdev.idx = [0, 0] ∧
        ∃ d ∈ w.list, xdevFindByIdx w.list d.idx ≠ some d := by
  constructor
  · intro pre post heq w hw
    exact (length_changes _ 255 ⟨post, heq.symm⟩ hw).trans (by decide)
  · obtain ⟨w, hw, hlist⟩ := foldl_changes (fun _ => { conf := { pdev := none } }) 255
    refine ⟨w, hw, by rw [hlist]; rfl, cardXdev (slotAfter 255) 0, ?_, ?_⟩
    · rw [hlist]
      exact List.mem_cons_of_mem _ List.mem_cons_self
    · rw [hlist]
      intro hsame
      exact absurd (congrArg ListedXdev.addr (Option.some.inj hsame)) (by decide)

end Qdma
