import ModelBlaster.Ingest.Slots
import ModelBlaster.Main.Walker

/-!
# Golden capture

The worker that counts the last dispatch of instance 0 of a network compares the output with the
golden one. Last is who brings the counter of the instance to `MODEL_OP_COUNT`. The counter tells
neither the schedule's entries nor its jobs apart, so that this is the last one only if no two
entries count towards one kernel.

## Main definitions

* `modelOpCounts`: `MODEL_OP_COUNT` of the networks in a binary;
* `Program.counted`: the entries counted for an instance.

## Main results

* `completed_eq_length`: the counters count those entries;
* `capture_complete`: when the output is captured, the whole network has run;
* `twin_overruns`: two jobs of one instance overrun the counter.
-/

namespace ModelBlaster

open List Function

variable {τ Loc Val : Type} {P : Program τ Loc Val}

/-- `MODEL_OP_COUNT` of the networks in a binary. -/
def modelOpCounts (irs : PyDict String Ir) (networks : List String) (network : String) :
    Option ℕ :=
  if network ∈ networks then (irs.get? network).map opCount else none

/-- The entry has a kernel in the binary. -/
def Program.Kernel (P : Program τ Loc Val) (i : ℕ) : Prop :=
  ∃ e, P.table[i]? = some e ∧ P.opCount e.network ≠ none ∧ 0 ≤ e.dispatchId

/-- The instance that an entry belongs to. -/
def XpurtEntry.slot (e : XpurtEntry τ) : String × ℤ := (e.network, e.instanceNo)

/-- The entries that were counted for an instance, once for every time. -/
def Program.counted (P : Program τ Loc Val) (tr : List Event) (slot : String × ℤ) : List ℕ :=
  (tr.filterMap Event.counted).filter fun j => (P.table[j]?.map XpurtEntry.slot) = some slot

variable [DecidableEq Loc] {w i : ℕ} {wa : Worker} {e : XpurtEntry τ} {s s' : State Loc Val}
  {tr evs : List Event}

/-- A worker locks harts, runs and counts only for entries with a kernel. -/
theorem kernel_of_run (h : P.Run tr s) :
    ∀ w, 3 ≤ (s.threads w).phase.rank → (s.threads w).phase.rank ≤ 8 →
      P.Kernel (s.threads w).i := by
  refine h.invariant (I := fun _ s => ∀ w, 3 ≤ (s.threads w).phase.rank →
    (s.threads w).phase.rank ≤ 8 → P.Kernel (s.threads w).i)
    (fun w hlow => absurd hlow (by simp [Program.start, Phase.rank])) ?_
  intro tr evs s s' w wa i e _ _ hI _ he hi hcase v hlow hhigh
  by_cases hv : v = w
  swap
  · rw [hcase.threads_of_ne hv] at hlow hhigh ⊢
    exact hI v hlow hhigh
  subst hv
  have hold := hI v
  cases hcase with
  | enter ht hop hid =>
    rw [State.goto_threads, update_self]
    exact ⟨e, he, hop, hid⟩
  | halt => exact hI v hlow hhigh
  | _ ht =>
    rw [ht] at hold
    revert hold hlow hhigh
    simp [Phase.rank]

/-- The step that counts an entry. -/
private theorem StepCase.count_mem_iff (hrun : P.Run tr s) (he : P.table[i]? = some e)
    (hi : (s.threads w).i = i) (h : StepCase P w wa i e s s' evs) (j v : ℕ) :
    .count j v ∈ evs ↔ v = w ∧ j = i ∧ P.Kernel i ∧ Reaches w i 8 s s' := by
  have hkernel := kernel_of_run hrun w
  rw [hi] at hkernel
  cases h with
  | pass ht hno =>
    -- An entry without a kernel goes past the count.
    have hnot : ¬P.Kernel i := by
      rintro ⟨x, hx, hop, hid⟩
      rw [he] at hx
      cases hx
      rcases hno with hno | hno
      · exact hop hno
      · omega
    simp [hnot]
  | count ht | countLast ht =>
    have hmine : P.Kernel i := hkernel (by simp [ht, Phase.rank]) (by simp [ht, Phase.rank])
    simp [Reaches, State.goto, Phase.rank, ht, hmine]
    tauto
  | _ => simp [Reaches, State.goto, Phase.rank, *]

/-- Who has counted an entry. -/
theorem count_mem_iff (h : P.Run tr s) {j v : ℕ} :
    .count j v ∈ tr ↔ P.Owns v j ∧ P.Kernel j ∧ (s.threads v).Past j 8 :=
  event_mem_iff .count (by decide) P.Kernel
    (fun _ _ _ _ _ _ _ _ hrun he hi hcase j v => hcase.count_mem_iff hrun he hi j v) h j v

/-- No entry is counted twice. -/
theorem nodup_counted (haudit : P.Audited) (h : P.Run tr s) (slot : String × ℤ) :
    (P.counted tr slot).Nodup := by
  refine List.Nodup.filter _ (nodup_events haudit .count (r := 8) (by decide) P.Kernel ?_ ?_ ?_ h)
  · exact fun _ _ _ _ _ _ _ _ hrun he hi hcase j v => hcase.count_mem_iff hrun he hi j v
  · rintro (_ | _ | _ | _) j <;> simp [Event.counted]
  · intro s s' evs w wa i e hcase
    cases hcase <;> simp [filterMap_cons, Event.counted]

omit [DecidableEq Loc] in
/-- The entries that were counted for an instance. -/
theorem Program.mem_counted {slot : String × ℤ} {j : ℕ} :
    j ∈ P.counted tr slot ↔
      (∃ v, .count j v ∈ tr) ∧ ∃ e, P.table[j]? = some e ∧ e.slot = slot := by
  rw [Program.counted, mem_filter, mem_filterMap, decide_eq_true_eq, Option.map_eq_some_iff]
  refine and_congr_left fun _ => ⟨?_, ?_⟩
  · rintro ⟨ev, hev, hj⟩
    cases ev <;> simp [Event.counted] at hj
    subst hj
    exact ⟨_, hev⟩
  · rintro ⟨v, hv⟩
    exact ⟨_, hv, rfl⟩

/-- Counters count the entries that were counted. -/
theorem completed_eq_length (h : P.Run tr s) (slot : String × ℤ) :
    s.completed slot = (P.counted tr slot).length := by
  refine h.invariant (I := fun tr s => s.completed slot = (P.counted tr slot).length) rfl ?_
  intro tr evs s s' w wa i e _ _ hI _ he _ hcase
  have happend : P.counted (tr ++ evs) slot = P.counted tr slot ++ P.counted evs slot := by
    simp [Program.counted, filterMap_append]
  have hone : P.counted [.count i w] slot = if e.slot = slot then [i] else [] := by
    simp [Program.counted, Event.counted, filter_cons, he]
  rw [happend, length_append, ← hI]
  cases hcase with
  | countLast | count =>
    rw [hone]
    show Function.update s.completed e.slot (s.completed e.slot + 1) slot = _
    rw [update_apply]
    split_ifs with hslot hslot' hslot'
    · rw [hslot]
      rfl
    · exact absurd hslot.symm hslot'
    · exact absurd hslot'.symm hslot
    · rfl
  | _ => simp [Program.counted, Event.counted, filterMap_cons, State.goto]

/-- Counters do not go down. -/
theorem StepCase.completed_le (h : StepCase P w wa i e s s' evs) (slot : String × ℤ) :
    s.completed slot ≤ s'.completed slot := by
  cases h with
  | countLast | count =>
    simp only [State.goto, update_apply]
    split_ifs with hslot
    · rw [hslot]
      omega
    · exact le_rfl
  | _ => exact le_rfl

/-- The output is captured for instance 0 of a network, behind as many counted entries as the
network has kernels. -/
theorem verifying_of_run (h : P.Run tr s) :
    ∀ w vals e, (s.threads w).phase = .verify vals → P.table[(s.threads w).i]? = some e →
      e.instanceNo = 0 ∧ ∃ n, P.opCount e.network = some n ∧ n ≤ s.completed e.slot := by
  refine h.invariant (I := fun _ s => ∀ w vals e, (s.threads w).phase = .verify vals →
    P.table[(s.threads w).i]? = some e →
      e.instanceNo = 0 ∧ ∃ n, P.opCount e.network = some n ∧ n ≤ s.completed e.slot)
    (fun w vals e hphase => by cases hphase) ?_
  intro tr evs s s' w wa i e _ _ hI _ he hi hcase v vals x hphase hx
  have hold : ∀ vals, (s.threads v).phase = .verify vals → P.table[(s.threads v).i]? = some x →
      x.instanceNo = 0 ∧ ∃ n, P.opCount x.network = some n ∧ n ≤ s'.completed x.slot := by
    intro vals hv hx
    obtain ⟨hfirst, n, hn, hle⟩ := hI v vals x hv hx
    exact ⟨hfirst, n, hn, hle.trans (hcase.completed_le x.slot)⟩
  by_cases hv : v = w
  swap
  · rw [hcase.threads_of_ne hv] at hphase hx
    exact hold vals hphase hx
  subst hv
  cases hcase with
  | countLast ht hlast hfirst =>
    rw [State.goto_threads, update_self] at hx
    rw [he] at hx
    cases hx
    refine ⟨hfirst, _, hlast, ?_⟩
    show _ ≤ Function.update s.completed e.slot (s.completed e.slot + 1) e.slot
    rw [update_self]
    exact le_rfl
  | verify ht =>
    rw [State.goto_threads, update_self] at hx
    refine hold _ (by rw [ht]) (by rwa [hi])
  | halt => exact hold vals hphase hx
  | _ ht => simp [State.goto] at hphase

/-! ### Tables of the ingest -/

/-- The row of an entry in the dispatch function table of its network. -/
def Program.rowAt (P : Program τ Loc Val) (j : ℕ) : ℕ :=
  (P.table[j]?.map fun e => e.dispatchId.toNat).getD 0

section Load

variable [LinearOrder τ] [Zero τ] [Add τ] {env : Env} {doc : Doc τ} {irs : PyDict String Ir}
  {reg : CoreRegistry} {slots : SlotKinds} {lim : Limits} {pools : List (List ℤ)}
  {networks : List String} {raw : RawTable τ}

/-- A schedule and its networks whose entries can be told apart by the rows that they count
towards. -/
structure CaptureSafe (irs : PyDict String Ir) (raw : RawTable τ) : Prop where
  slots : SlotsDistinct irs raw
  /-- `opCount` counts every op with a row. -/
  counted : ∀ network ir, irs.get? network = some ir → ∀ op ∈ ir.ops, op.op ∉ uncountedKinds

variable {ir : Ir} {network : String}

section
variable (hload : load env doc irs reg slots = .ok P.table)
include hload

/-- The entries counted for an instance stand for distinct rows of the network's table. -/
private theorem counted_rows (hdoc : doc.dispatches = some raw) (hsafe : CaptureSafe irs raw)
    (hrun : P.Run tr s) (instanceNo : ℤ) (hir : irs.get? network = some ir) :
    Set.MapsTo P.rowAt (P.counted tr (network, instanceNo)).toFinset
        (Finset.range (opCount ir)) ∧
      Set.InjOn P.rowAt (P.counted tr (network, instanceNo)).toFinset := by
  have hentry : ∀ j, j ∈ (P.counted tr (network, instanceNo)).toFinset →
      ∃ e, P.table[j]? = some e ∧ e.network = network ∧ e.instanceNo = instanceNo ∧
        0 ≤ e.dispatchId ∧ P.rowAt j = e.dispatchId.toNat := by
    intro j hj
    obtain ⟨⟨v, hv⟩, e, he, hslot⟩ := Program.mem_counted.mp (mem_toFinset.mp hj)
    obtain ⟨-, ⟨x, hx, -, hid⟩, -⟩ := (count_mem_iff hrun).mp hv
    rw [he] at hx
    cases hx
    exact ⟨e, he, congrArg Prod.fst hslot, congrArg Prod.snd hslot, hid, by
      simp [Program.rowAt, he]⟩
  constructor
  · intro j hj
    obtain ⟨e, he, hnet, -, hid, hrow⟩ := hentry j hj
    have hlt := dispatchId_lt_opCount hload he (hnet ▸ hir) (hsafe.counted network ir hir)
    rw [Finset.mem_coe, Finset.mem_range, hrow]
    omega
  · intro j hj k hk heq
    obtain ⟨e, he, hnet, hinst, hid, hrow⟩ := hentry j hj
    obtain ⟨x, hx, hnet', hinst', hid', hrow'⟩ := hentry k hk
    refine eq_of_slot_eq hload hdoc hsafe.slots he hx (hnet.trans hnet'.symm)
      (hinst.trans hinst'.symm) ?_ hid
    omega

/-- Counters stay within `MODEL_OP_COUNT`. -/
theorem completed_le_opCount (hstart : startUp lim P.kinds P.table = .ok (P.workers, pools))
    (hdoc : doc.dispatches = some raw) (hsafe : CaptureSafe irs raw) (hrun : P.Run tr s)
    (hir : irs.get? network = some ir) (instanceNo : ℤ) :
    s.completed (network, instanceNo) ≤ opCount ir := by
  obtain ⟨hmaps, hinj⟩ := counted_rows hload hdoc hsafe hrun instanceNo hir
  have hcard := Finset.card_le_card_of_injOn P.rowAt hmaps hinj
  rwa [Finset.card_range, toFinset_card_of_nodup (nodup_counted (audited_of_startUp hstart) hrun _),
    ← completed_eq_length hrun] at hcard

/-- Once the counter of an instance is full, all of its kernels have run: every entry with a
kernel, and an entry for every row of the network's table. -/
theorem finished_of_full (hstart : startUp lim P.kinds P.table = .ok (P.workers, pools))
    (hdoc : doc.dispatches = some raw) (hsafe : CaptureSafe irs raw) (hrun : P.Run tr s)
    (hir : irs.get? network = some ir) {instanceNo : ℤ}
    (hfull : opCount ir ≤ s.completed (network, instanceNo)) {row : ℕ} (hrow : row < opCount ir) :
    ∃ (j : ℕ) (e : XpurtEntry τ), P.table[j]? = some e ∧ e.network = network ∧
      e.instanceNo = instanceNo ∧ e.dispatchId = row ∧ Finished tr j := by
  obtain ⟨hmaps, hinj⟩ := counted_rows hload hdoc hsafe hrun instanceNo hir
  have hsurj := Finset.surjOn_of_injOn_of_card_le P.rowAt hmaps hinj (by
    rwa [Finset.card_range,
      toFinset_card_of_nodup (nodup_counted (audited_of_startUp hstart) hrun _),
      ← completed_eq_length hrun])
  obtain ⟨j, hj, heq⟩ := hsurj (Finset.mem_coe.mpr (Finset.mem_range.mpr hrow))
  obtain ⟨⟨v, hv⟩, e, he, hslot⟩ :=
    Program.mem_counted.mp (mem_toFinset.mp (Finset.mem_coe.mp hj))
  obtain ⟨hown, ⟨x, hx, -, hid⟩, hpast⟩ := (count_mem_iff hrun).mp hv
  rw [he] at hx
  cases hx
  refine ⟨j, e, he, congrArg Prod.fst hslot, congrArg Prod.snd hslot, ?_,
    v, (finish_mem_iff hrun).mpr ⟨hown, hpast.mono (by decide)⟩⟩
  rw [Program.rowAt, he] at heq
  simp only [Option.map_some, Option.getD_some] at heq
  omega

end

/-- Whatever the order of the workers' steps, if no two entries of the schedule count towards one
kernel of one instance, then no counter passes `MODEL_OP_COUNT`, and when the output of a network
is compared with the golden one, every kernel of instance 0 has run: every such entry of the
table, and an entry for every dispatch id of the network. -/
theorem capture_complete (hload : load env doc irs reg slots = .ok P.table)
    (hstart : startUp lim P.kinds P.table = .ok (P.workers, pools))
    (hbinary : P.opCount = modelOpCounts irs networks) (hdoc : doc.dispatches = some raw)
    (hsafe : CaptureSafe irs raw) (hrun : P.Run tr s) :
    (∀ network n, P.opCount network = some n →
      ∀ instanceNo, s.completed (network, instanceNo) ≤ n) ∧
    (∀ (i j : ℕ) (a b : XpurtEntry τ), P.table[i]? = some a → P.table[j]? = some b →
      a.network = b.network → a.instanceNo = b.instanceNo → a.dispatchId = b.dispatchId →
      0 ≤ a.dispatchId → i = j) ∧
    ∀ w vals (e : XpurtEntry τ), (s.threads w).phase = .verify vals → P.table[(s.threads w).i]? = some e →
      e.instanceNo = 0 ∧
      (∀ (j : ℕ) (x : XpurtEntry τ), P.table[j]? = some x → x.network = e.network →
        x.instanceNo = 0 → 0 ≤ x.dispatchId → Finished tr j) ∧
      ∀ ir did row, irs.get? e.network = some ir → (indexIr ir).remap.get? did = some row →
        0 ≤ row → ∃ (j : ℕ) (x : XpurtEntry τ), P.table[j]? = some x ∧
          x.network = e.network ∧ x.instanceNo = 0 ∧ x.dispatchId = row ∧ Finished tr j := by
  have hcount : ∀ {network n}, P.opCount network = some n →
      ∃ ir, irs.get? network = some ir ∧ opCount ir = n := by
    intro network n hn
    rw [hbinary, modelOpCounts] at hn
    split_ifs at hn
    exact Option.map_eq_some_iff.mp hn
  refine ⟨?_, ?_, ?_⟩
  · intro network n hn instanceNo
    obtain ⟨ir, hir, rfl⟩ := hcount hn
    exact completed_le_opCount hload hstart hdoc hsafe hrun hir instanceNo
  · intro i j a b ha hb hnet hinst hid hkernel
    exact eq_of_slot_eq hload hdoc hsafe.slots ha hb hnet hinst hid hkernel
  · intro w vals e hphase he
    obtain ⟨hfirst, n, hn, hle⟩ := verifying_of_run hrun w vals e hphase he
    obtain ⟨ir, hir, rfl⟩ := hcount hn
    rw [XpurtEntry.slot, hfirst] at hle
    have hrows : ∀ row : ℕ, row < opCount ir → ∃ (j : ℕ) (x : XpurtEntry τ),
        P.table[j]? = some x ∧ x.network = e.network ∧ x.instanceNo = 0 ∧
          x.dispatchId = row ∧ Finished tr j :=
      fun row hrow => finished_of_full hload hstart hdoc hsafe hrun hir hle hrow
    refine ⟨hfirst, ?_, ?_⟩
    · intro j x hx hnet hinst hkernel
      have hlt := dispatchId_lt_opCount hload hx (hnet ▸ hir) (hsafe.counted _ ir hir)
      obtain ⟨k, y, hy, hynet, hyinst, hyid, hfin⟩ := hrows x.dispatchId.toNat (by omega)
      -- The entry that has run is the one in question.
      have hkj : k = j := eq_of_slot_eq hload hdoc hsafe.slots hy hx (hynet.trans hnet.symm)
        (hyinst.trans hinst.symm) (by omega) (by omega)
      exact hkj ▸ hfin
    · intro ir' did row hir' hrow hpos
      rw [hir] at hir'
      cases hir'
      have hlt := (rows_indexIr ir).row_lt _ _ hrow
      rw [(rows_indexIr ir).next_eq] at hlt
      have hle' := countP_rowed_le_opCount (hsafe.counted _ ir hir)
      obtain ⟨j, x, hx, hnet, hinst, hid, hfin⟩ := hrows row.toNat (by omega)
      exact ⟨j, x, hx, hnet, hinst, by omega, hfin⟩

end Load

private theorem captureSafe_head : CaptureSafe pairIrs headRaw := by
  have hone : ∀ item ∈ headRaw.items, item.1 = "mlp_dispatch_0" ∧ item.2.jobName = "mlp" := by
    decide
  have hkinds : ∀ item ∈ pairIrs.items, ∀ op ∈ item.2.ops, op.op ∉ uncountedKinds := by
    decide
  have hget : ∀ {k d}, headRaw.get? k = some d → k = "mlp_dispatch_0" ∧ d.jobName = "mlp" :=
    fun hd => hone _ (PyDict.mem_items_iff.mpr hd)
  refine ⟨⟨?_, ?_⟩, fun network ir hir => hkinds _ (PyDict.mem_items_iff.mpr hir)⟩
  · intro k₁ k₂ d₁ d₂ _ _ _ hd₁ hd₂ _ _ _
    rw [(hget hd₁).2, (hget hd₂).2]
  · intro k₁ k₂ d₁ d₂ _ _ _ hd₁ hd₂ _ _ _ _
    rw [(hget hd₁).1, (hget hd₂).1]

private theorem opCount_head : headProgram.opCount = modelOpCounts pairIrs ["mlp"] := by
  funext network
  show (if network = "mlp" then some 2 else none) = modelOpCounts pairIrs ["mlp"] network
  unfold modelOpCounts
  by_cases hnet : network = "mlp"
  · subst hnet
    decide
  · rw [if_neg hnet, if_neg (by simpa using hnet)]

/-- In the small binary the output is captured when both ops have run. -/
theorem capture_complete_head : ∃ tr s, headProgram.Run tr s ∧
    s.captured "mlp" = some [7] ∧ s.completed ("mlp", 0) ≤ 2 := by
  have hend : ((Interleaving.follow (stepWorker headProgram) headOrder
      ([], headProgram.start)).map fun r => r.2.captured "mlp") = some (some [7]) := by
    decide
  obtain ⟨⟨tr, s⟩, hfollow, hcaptured⟩ := Option.map_eq_some_iff.mp hend
  have hrun := Interleaving.run_of_follow .start hfollow
  have hmain := capture_complete
    (show load {} ⟨some headRaw, none, []⟩ pairIrs pairRegistry {} = .ok headTable by
      decide)
    (show startUp {} ["rvv", "scalar"] headTable = .ok (headProgram.workers, []) by
      decide) opCount_head rfl captureSafe_head hrun
  exact ⟨tr, s, hrun, hcaptured, hmain.1 "mlp" 2 rfl 0⟩

/-! ### Two names of one instance -/

/-- A schedule of the small network under two job names, `mlp` and `mlp0`. -/
def twinRaw : RawTable ℕ where
  items :=
    [("mlp_dispatch_0", { id := 0, hardwareTarget := some "CPU_P#0", duration := some 5
                          jobName := "mlp" }),
      ("mlp0_dispatch_0", { id := 0, hardwareTarget := some "CPU_P#0", duration := some 5
                            jobName := "mlp0" })]
  nodup := by decide

/-- The table of that schedule: both jobs are instance 0, and both are completed. -/
def twinTable : List (XpurtEntry ℕ) :=
  let linear : XpurtEntry ℕ :=
    { entryId := 0, scheduleKey := "mlp0_dispatch_0", jobName := "mlp0", network := "mlp"
      instanceNo := 0, dispatchId := 0, op := "linear_s8", name := "dispatch_0"
      coreName := "rvv0", coreKind := "rvv", impl := "rvv", hart := 1, harts := [1]
      startTime := 0, duration := 5, depsEntryIds := [], timeDepEntryId := -1
      fanoutEntryIds := [2] }
  let relu : XpurtEntry ℕ :=
    { entryId := 2, scheduleKey := "mlp0_dispatch_1", jobName := "mlp0", network := "mlp"
      instanceNo := 0, dispatchId := 1, op := "relu_s8", name := "dispatch_1"
      coreName := "rocket0", coreKind := "scalar", impl := "scalar", hart := 0, harts := [0]
      startTime := 5, duration := 0, depsEntryIds := [0], timeDepEntryId := -1
      fanoutEntryIds := [] }
  [linear,
    { linear with
      entryId := 1, scheduleKey := "mlp_dispatch_0", jobName := "mlp", fanoutEntryIds := [3] },
    relu,
    { relu with
      entryId := 3, scheduleKey := "mlp_dispatch_1", jobName := "mlp", depsEntryIds := [1] }]

/-- A binary for that table. -/
def twinProgram : Program ℕ ℕ ℕ := { headProgram with table := twinTable }

/-- The schedule is taken and completed, and its table gets through the start-up. But the output
is captured before an activation has started, and then the counter passes `MODEL_OP_COUNT`. -/
theorem twin_overruns :
    load {} ⟨some twinRaw, none, []⟩ pairIrs pairRegistry {} = .ok twinProgram.table ∧
      startUp {} twinProgram.kinds twinProgram.table = .ok (twinProgram.workers, []) ∧
      twinProgram.opCount "mlp" = some 2 ∧
      (∃ tr s, twinProgram.Run tr s ∧ (s.threads 0).phase = .verify [] ∧
        ∀ j ∈ [2, 3], ¬Started tr j) ∧
      ∃ tr s, twinProgram.Run tr s ∧ s.completed ("mlp", 0) = 3 := by
  refine ⟨by decide, by decide, rfl, ?_, ?_⟩
  · have hend : ((Interleaving.follow (stepWorker twinProgram) (List.replicate 26 0)
        ([], twinProgram.start)).map fun r => ((r.2.threads 0).phase, starts r.1)) =
          some (.verify [], [0, 1]) := by decide
    obtain ⟨⟨tr, s⟩, hfollow, heq⟩ := Option.map_eq_some_iff.mp hend
    rw [Prod.mk.injEq] at heq
    refine ⟨tr, s, Interleaving.run_of_follow .start hfollow, heq.1, ?_⟩
    rintro j hj ⟨v, hv⟩
    have hmem : j ∈ starts tr := mem_filterMap.mpr ⟨_, hv, rfl⟩
    rw [show starts tr = [0, 1] from heq.2] at hmem
    have hnot : ∀ j ∈ [2, 3], j ∉ [0, 1] := by decide
    exact hnot j hj hmem
  · have hend : ((Interleaving.follow (stepWorker twinProgram)
        (List.replicate 31 0 ++ List.replicate 16 1) ([], twinProgram.start)).map
          fun r => r.2.completed ("mlp", 0)) = some 3 := by decide
    obtain ⟨⟨tr, s⟩, hfollow, heq⟩ := Option.map_eq_some_iff.mp hend
    exact ⟨tr, s, Interleaving.run_of_follow .start hfollow, heq⟩

end ModelBlaster
