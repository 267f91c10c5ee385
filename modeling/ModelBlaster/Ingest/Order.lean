import ModelBlaster.Library.PyStr
import ModelBlaster.Library.PyDict
import ModelBlaster.Library.KahnLoop
import ModelBlaster.Library.Fallible

/-!
# XPU-RT schedules

The schedule document as the ingest reads it, the entries of the dispatch table it produces
and the errors it raises. Times are values of an ordered type `τ` with a zero and an
addition.

## Main definitions

* `RawEntry`, `Doc`: a dispatch of the schedule and the document;
* `XpurtEntry`: an entry of the dispatch table;
* `IngestError`: the exceptions, with the data their messages carry;
* `dataEdges`, `timeEdges`: the edges that the two fields ask for;
* `admission`: the admitted edges and the dropped time dependencies;
* `sortedKeys`: the keys in table order;
* `isInstance`: `schedule_shards._is_instance`;
* `splitJobName`: `_split_job_name`;
* `instanceMatch`: `_INSTANCE_RE.match`;
* `SlotKinds`: the kinds that stand for the two labels;
* `resolveTarget` and `resolveTargets`: one slot and a combination of slots.

## Main results

* `greedy_sortedKeys`: every position holds the ready entry of least start time and key;
* `length_sortedKeys_eq_iff`: all entries are placed iff the admitted edges are acyclic;
* `splitKnown_eq`: the loop over the known networks stops at the first that accepts the
  job;
* `resolveTargets_spec`: what a resolved combination looks like.
-/

namespace ModelBlaster

/-- A dispatch of the schedule document. -/
structure RawEntry (τ : Type) where
  /-- Dispatch id within the network. -/
  id : ℤ
  /-- Keys of the dispatches this one consumes. -/
  dependencies : List String := []
  /-- Machine slots, e.g. `CPU_P#0+CPU_P#1`. -/
  hardwareTarget : Option String
  /-- Planned start. -/
  startTime : Option τ := none
  /-- Planned duration. -/
  duration : Option τ := none
  /-- Job name: a network name, possibly with an instance number behind it. -/
  jobName : String
  /-- Key of a dispatch of any job that must end first. -/
  timeDependency : Option String := none
  /-- Kernel implementation chosen for this dispatch. -/
  impl : Option String := none
deriving DecidableEq, Repr

/-- The dispatches of a schedule by key. -/
abbrev RawTable (τ : Type) := PyDict String (RawEntry τ)

/-- The schedule document. -/
structure Doc (τ : Type) where
  /-- The dispatches; `none` when the field is missing or not an object. -/
  dispatches : Option (RawTable τ)
  /-- Hash over the profile files that the solver read. -/
  pdbHash : Option String := none
  /-- The profile files that the solver read. -/
  pdbFiles : List String := []

/-- The environment of an ingest run. -/
structure Env where
  /-- `MB_INGEST_STRICT_PDB_CHECK`. -/
  strictPdbCheck : Bool := false
  /-- `MB_INGEST_SKIP_IR_COMPLETION`. -/
  skipIrCompletion : Bool := false
  /-- The hash over the present contents of the given profile files; `none` when computing
  it fails. -/
  currentPdbHash : List String → Option String := fun _ => none

/-- An entry of the dispatch table. -/
structure XpurtEntry (τ : Type) where
  /-- Position in the table. -/
  entryId : ℕ
  /-- Key in the schedule document. -/
  scheduleKey : String
  /-- Job name. -/
  jobName : String
  /-- Network name. -/
  network : String
  /-- Instance number of the job. -/
  instanceNo : ℤ
  /-- Row of the network's dispatch function table, `-1` for an op without a row. -/
  dispatchId : ℤ
  /-- Op kind. -/
  op : String
  /-- Node name. -/
  name : String
  /-- Registry core of the owning hart. -/
  coreName : String
  /-- Kind of the owning core. -/
  coreKind : String
  /-- Kernel implementation. -/
  impl : String
  /-- Owning hart, `-1` if unbound. -/
  hart : ℤ
  /-- All reserved harts, the owning one first. -/
  harts : List ℤ
  /-- Planned start. -/
  startTime : τ
  /-- Planned duration. -/
  duration : τ
  /-- Positions of the producers. -/
  depsEntryIds : List ℕ
  /-- Position of the cross-job predecessor, `-1` if there is none. -/
  timeDepEntryId : ℤ
  /-- Positions of the entries that wait for this one. -/
  fanoutEntryIds : List ℕ := []
deriving DecidableEq, Repr

/-- The exceptions of an ingest run, with the data that their messages carry. -/
inductive IngestError where
  /-- `'dispatches' missing or empty` -/
  | missingDispatches
  /-- `PDB content hash mismatch` -/
  | pdbHashMismatch
  /-- `int()` refuses the literal. -/
  | invalidInt (literal : String)
  /-- `unknown machine label` -/
  | unknownMachineLabel (label : String)
  /-- `registry has no cores of kind` -/
  | noCoresOfKind (system kind label : String)
  /-- The slot number exceeds the cores of the kind. -/
  | coreIndex (label : String) (idx : ℤ) (count : ℕ) (kind : String)
  /-- `empty hardware_target` -/
  | emptyTarget (target : String)
  /-- A composite target `must use the same runtime kind`. -/
  | mixedKinds (target : String) (kinds : List String)
  /-- A composite target `resolves the same hart twice`. -/
  | sameHartTwice (target : String) (harts : List ℤ)
  /-- A composite target `contains an unbound hart`. -/
  | unboundHart (target : String)
  /-- `schedule dep graph has a cycle` -/
  | dependencyCycle (total placed : ℕ) (stuck : List String)
  /-- `references unknown network` -/
  | unknownNetwork (key network : String) (known : List String)
  /-- The dispatch id is `not in network`. -/
  | unknownDispatchId (key : String) (did : ℤ) (network : String)
  /-- The entry has no `hardware_target`. -/
  | missingTarget (key : String)
  /-- `depends on unknown entry` -/
  | unknownDep (key dep : String)
  /-- The entry `has FORWARD dep`. -/
  | forwardDep (key : String) (entryId : ℕ) (dep : String) (depId : ℕ)
  /-- `time_dependency points at unknown` -/
  | unknownTimeDep (key dep : String)
  /-- The entry `has FORWARD time_dep`. -/
  | forwardTimeDep (key : String) (entryId : ℕ) (dep : String) (depId : ℕ)
deriving DecidableEq, Repr

/-- A string field that the source tests for truth: `none` when it is missing or empty. -/
def truthy (field : Option String) : Option String := field.filter (· ≠ "")

variable {τ : Type}

/-- `float(d.get("start_time", 0.0) or 0.0)` -/
def RawEntry.start [Zero τ] (d : RawEntry τ) : τ := d.startTime.getD 0

/-- `float(d.get("duration", 0.0) or 0.0)` -/
def RawEntry.length [Zero τ] (d : RawEntry τ) : τ := d.duration.getD 0

/-- The key that the ingest gives to a dispatch of a job. -/
def dispatchKey (job : String) (did : ℤ) : String := job ++ "_dispatch_" ++ toString did

/-- The key determines the job and the dispatch id. -/
theorem dispatchKey_inj {job job' : String} {did did' : ℤ} :
    dispatchKey job did = dispatchKey job' did' ↔ job = job' ∧ did = did' := by
  constructor
  · intro h
    have hkey : job ++ ("_dispatch" ++ "_") ++ toString did =
        job' ++ ("_dispatch" ++ "_") ++ toString did' := h
    exact Decimal.append_toString_inj hkey
  · rintro ⟨rfl, rfl⟩
    rfl

/-! ## Table order -/

open PyDict

/-! ### Edges -/

/-- The data dependencies between entries of the schedule, as edges from producer to
consumer. -/
def dataEdges (raw : RawTable τ) : List (String × String) :=
  raw.items.flatMap fun item =>
    (item.2.dependencies.filter (· ∈ raw.keys)).map fun dep => (dep, item.1)

/-- The time dependencies between entries of the schedule, by the key of the waiting entry. -/
def timeEdges (raw : RawTable τ) : List (String × String) :=
  (raw.items.insertionSort fun a b => a.1 ≤ b.1).filterMap fun item =>
    ((truthy item.2.timeDependency).filter (· ∈ raw.keys)).map fun dep => (dep, item.1)

/-- The admitted edges and the dropped time dependencies. -/
def admission (raw : RawTable τ) : List (String × String) × List (String × String) :=
  EdgeList.accept (dataEdges raw) (timeEdges raw)

variable {c p : String} {raw : RawTable τ}

/-- The data edges into an entry are its dependencies on other entries. -/
theorem mem_dataEdges :
    (p, c) ∈ dataEdges raw ↔
      ∃ d, raw.get? c = some d ∧ p ∈ d.dependencies ∧ p ∈ raw.keys := by
  simp only [dataEdges, List.mem_flatMap, List.mem_map, List.mem_filter, decide_eq_true_eq,
    Prod.mk.injEq]
  constructor
  · rintro ⟨⟨k, d⟩, hitem, dep, ⟨hdep, hkey⟩, rfl, rfl⟩
    exact ⟨d, mem_items_iff.mp hitem, hdep, hkey⟩
  · rintro ⟨d, hget, hdep, hkey⟩
    exact ⟨(c, d), mem_items_iff.mpr hget, p, ⟨hdep, hkey⟩, rfl, rfl⟩

/-- The time edge into an entry is its time dependency on another entry. -/
theorem mem_timeEdges :
    (p, c) ∈ timeEdges raw ↔
      ∃ d, raw.get? c = some d ∧ truthy d.timeDependency = some p ∧ p ∈ raw.keys := by
  simp only [timeEdges, List.mem_filterMap, List.mem_insertionSort, Option.map_eq_some_iff,
    Option.filter_eq_some_iff, decide_eq_true_eq, Prod.mk.injEq]
  constructor
  · rintro ⟨⟨k, d⟩, hitem, dep, ⟨hdep, hkey⟩, rfl, rfl⟩
    exact ⟨d, mem_items_iff.mp hitem, hdep, hkey⟩
  · rintro ⟨d, hget, hdep, hkey⟩
    exact ⟨(c, d), mem_items_iff.mpr hget, p, ⟨hdep, hkey⟩, rfl, rfl⟩

/-- Edges join entries of the schedule. -/
theorem mem_keys_of_mem_admission (h : (p, c) ∈ (admission raw).1) :
    p ∈ raw.keys ∧ c ∈ raw.keys := by
  rcases EdgeList.mem_or_mem_of_mem_accept h with hdata | htime
  · obtain ⟨d, hget, -, hkey⟩ := mem_dataEdges.mp hdata
    exact ⟨hkey, mem_keys_of_get? hget⟩
  · obtain ⟨d, hget, -, hkey⟩ := mem_timeEdges.mp htime
    exact ⟨hkey, mem_keys_of_get? hget⟩

/-! ### The sorted keys -/

variable [LinearOrder τ] [Zero τ]

/-- The priority of an entry: start time, then key. -/
def rank (raw : RawTable τ) (key : String) : τ ×ₗ String :=
  toLex (((raw.get? key).map RawEntry.start).getD 0, key)

/-- The keys in table order. -/
def sortedKeys (raw : RawTable τ) : List String :=
  KahnSort.sort (admission raw).1 raw.keys (rank raw)

/-- Every position of the table order holds the ready entry of least start time and key. -/
theorem greedy_sortedKeys (raw : RawTable τ) :
    KahnSort.Greedy (admission raw).1 raw.keys (rank raw) (sortedKeys raw) :=
  KahnSort.greedy_sort (rank raw) raw.keys_nodup fun _ _ h => (mem_keys_of_mem_admission h).2

/-- All entries are placed iff the admitted edges are acyclic. -/
theorem length_sortedKeys_eq_iff (raw : RawTable τ) :
    (sortedKeys raw).length = raw.keys.length ↔ EdgeList.Acyclic (admission raw).1 :=
  KahnSort.length_sort_eq_iff (rank raw) raw.keys_nodup fun _ _ h => mem_keys_of_mem_admission h

/-- When all entries are placed the table order is a permutation of the schedule. -/
theorem perm_sortedKeys (h : (sortedKeys raw).length = raw.keys.length) :
    (sortedKeys raw).Perm raw.keys :=
  (KahnSort.perm_sort_iff (rank raw) raw.keys_nodup fun _ _ h => mem_keys_of_mem_admission h).mpr
    ((length_sortedKeys_eq_iff raw).mp h)

end ModelBlaster

/-! ## Job names -/

namespace ModelBlaster

open PyStr

/-- `s[len(base):]` when `s.startswith(base)`. -/
def suffixAfter? (base s : String) : Option (List Char) :=
  if base.toList.isPrefixOf s.toList then some (s.toList.drop base.toList.length) else none

/-- Is `job` the network's name, or that name followed by digits? -/
def isInstance (job network : String) : Bool :=
  job == network || ((suffixAfter? network job).any isdigit)

/-- `int(s)` with its exception. -/
def pyInt (s : List Char) : Except IngestError ℤ :=
  match int? s with
  | some n => .ok n
  | none => .error (.invalidInt (String.ofList s))

/-- `sorted(known, key=len, reverse=True)` -/
def longestFirst (known : List String) : List String :=
  known.insertionSort fun a b => b.length ≤ a.length

/-- The loop over the known networks; `none` when it runs through. -/
def splitKnown (job : String) : List String → Option (Except IngestError (String × ℤ))
  | [] => none
  | base :: rest =>
    if job = base then some (.ok (base, 0))
    else
      match suffixAfter? base job with
      | some suffix =>
        if isdigit suffix then some ((pyInt suffix).map fun idx => (base, idx))
        else splitKnown job rest
      | none => splitKnown job rest

/-- `\d+$`: the digits that end the string, or end it but for a final newline. -/
def trailingDigits? (s : List Char) : Option (List Char) :=
  let digits := s.takeWhile isDecimalChar
  let rest := s.dropWhile isDecimalChar
  if digits ≠ [] ∧ (rest = [] ∨ rest = ['\n']) then some digits else none

/-- `_INSTANCE_RE.match`: the shortest nonempty base without a newline that is followed by
trailing digits. -/
def instanceMatch (base : List Char) : List Char → Option (List Char × List Char)
  | [] => none
  | c :: rest =>
    if c = '\n' then none
    else
      match trailingDigits? rest with
      | some digits => some (base ++ [c], digits)
      | none => instanceMatch (base ++ [c]) rest

/-- The fallback for a job of no known network. -/
def splitTrailingDigits (job : String) : Except IngestError (String × ℤ) :=
  match instanceMatch [] job.toList with
  | none => .ok (job, 0)
  | some (base, digits) => (pyInt digits).map fun idx => (String.ofList base, idx)

/-- Split a job name into a network name and an instance number. -/
def splitJobName (job : String) (known : List String) : Except IngestError (String × ℤ) :=
  (splitKnown job (longestFirst known)).getD (splitTrailingDigits job)

/-! ### The loop over the known networks -/

/-- What an accepted network contributes: instance zero of its own name, otherwise the number
behind the name. -/
def splitAt (job base : String) : Except IngestError (String × ℤ) :=
  if job = base then .ok (base, 0)
  else (pyInt (job.toList.drop base.toList.length)).map fun idx => (base, idx)

variable {base job n : String} {known : List String}

/-- A suffix is what follows the prefix. -/
theorem suffixAfter?_eq_some_iff {s : String} {suffix : List Char} :
    suffixAfter? base s = some suffix ↔ s.toList = base.toList ++ suffix := by
  unfold suffixAfter?
  constructor
  · intro h
    split_ifs at h with hpre
    obtain ⟨rest, hrest⟩ := List.isPrefixOf_iff_prefix.mp hpre
    rw [← hrest, List.drop_left] at h
    rw [← hrest, Option.some.inj h]
  · intro h
    rw [h, if_pos (List.isPrefixOf_iff_prefix.mpr (List.prefix_append _ _)), List.drop_left]

/-- A network accepts its own name and its name followed by digits. -/
theorem isInstance_iff {network : String} :
    isInstance job network = true ↔
      job = network ∨ ∃ suffix, isdigit suffix = true ∧
        job.toList = network.toList ++ suffix := by
  rw [isInstance, Bool.or_eq_true, beq_iff_eq]
  refine or_congr_right ?_
  cases hsuffix : suffixAfter? network job with
  | none =>
    simp only [Option.any_none, Bool.false_eq_true, false_iff, not_exists, not_and]
    intro suffix _ hjob
    rw [suffixAfter?_eq_some_iff.mpr hjob] at hsuffix
    cases hsuffix
  | some suffix =>
    have hjob := suffixAfter?_eq_some_iff.mp hsuffix
    exact ⟨fun hdigit => ⟨suffix, hdigit, hjob⟩, fun ⟨suffix', hdigit, hjob'⟩ =>
      List.append_cancel_left (hjob'.symm.trans hjob) ▸ hdigit⟩

/-- The loop stops at the first network that accepts the job. -/
theorem splitKnown_eq (job : String) (l : List String) :
    splitKnown job l = (l.find? (isInstance job)).map (splitAt job) := by
  induction l with
  | nil => rfl
  | cons base rest ih =>
    rw [splitKnown, List.find?_cons]
    by_cases heq : job = base
    · subst heq
      simp [isInstance, splitAt]
    · rw [if_neg heq]
      have hinst : isInstance job base = (suffixAfter? base job).any isdigit := by
        simp [isInstance, heq]
      rw [hinst]
      cases hsuffix : suffixAfter? base job with
      | none => simpa using ih
      | some suffix =>
        by_cases hdigit : isdigit suffix = true
        · have hdrop : job.toList.drop base.toList.length = suffix := by
            rw [suffixAfter?_eq_some_iff.mp hsuffix, List.drop_left]
          simp [hdigit, splitAt, heq, hdrop]
        · simpa [hdigit] using ih

/-- Sorting by length keeps the networks. -/
theorem mem_longestFirst :
    n ∈ longestFirst known ↔ n ∈ known :=
  (List.perm_insertionSort _ known).mem_iff

/-- With a known network that accepts the job, the split is decided by the first one. -/
theorem splitJobName_of_find (h : (longestFirst known).find? (isInstance job) = some n) :
    splitJobName job known = splitAt job n := by
  rw [splitJobName, splitKnown_eq, h]
  rfl

/-- Without a known network that accepts the job, the regular expression decides. -/
theorem splitJobName_of_none (h : ∀ n ∈ known, isInstance job n = false) :
    splitJobName job known = splitTrailingDigits job := by
  have hnone : (longestFirst known).find? (isInstance job) = none := by
    rw [List.find?_eq_none]
    intro n hn
    simp [h n (mem_longestFirst.mp hn)]
  rw [splitJobName, splitKnown_eq, hnone]
  rfl

/-- A split that names a network through an accepted base names that base. -/
theorem splitAt_eq_ok_iff {i : ℤ} :
    splitAt job base = .ok (n, i) ↔ n = base ∧
      ((job = base ∧ i = 0) ∨
        (job ≠ base ∧ int? (job.toList.drop base.toList.length) = some i)) := by
  unfold splitAt
  by_cases heq : job = base
  · simp [heq]
    constructor
    · rintro ⟨rfl, rfl⟩
      exact ⟨rfl, rfl⟩
    · rintro ⟨rfl, rfl⟩
      exact ⟨rfl, rfl⟩
  · rw [if_neg heq, pyInt]
    cases hint : int? (job.toList.drop base.toList.length) with
    | none => simp [heq, Except.map]
    | some k =>
      simp only [Except.map, Except.ok.injEq, Prod.mk.injEq, heq, false_and, false_or, ne_eq,
        not_false_eq_true, true_and, Option.some.injEq]
      constructor
      · rintro ⟨rfl, rfl⟩
        exact ⟨rfl, rfl⟩
      · rintro ⟨rfl, rfl⟩
        exact ⟨rfl, rfl⟩

end ModelBlaster

/-! ## Hardware targets -/

/-! ## Core registries -/

namespace ModelBlaster

/-- A core of the registry. -/
structure Core where
  /-- Unique name, e.g. `rvv0`. -/
  name : String
  /-- Kind, e.g. `rvv`, `scalar`, `gemmini`. -/
  kind : String
  /-- The harts this core covers; may be empty. -/
  harts : List ℤ
deriving DecidableEq, Repr

/-- The preferred hart of a core, `-1` when it covers none. -/
def Core.hart (c : Core) : ℤ := c.harts.headD (-1)

/-- A core registry. -/
structure CoreRegistry where
  /-- Short tag of the system. -/
  system : String
  /-- The cores in declaration order. -/
  cores : List Core
deriving DecidableEq, Repr

/-- `reg.by_kind.get(kind, ())`: the cores of a kind in declaration order. -/
def CoreRegistry.byKind (reg : CoreRegistry) (kind : String) : List Core :=
  reg.cores.filter fun c => c.kind = kind

open PyStr

/-- The registry kinds that stand for the two machine labels. -/
structure SlotKinds where
  /-- `cpu_p_kind` -/
  cpuPKind : String := "rvv"
  /-- `cpu_e_kind` -/
  cpuEKind : String := "scalar"
deriving DecidableEq, Repr

/-- A resolved slot combination. -/
structure Resolved where
  /-- Core of the first slot. -/
  coreName : String
  /-- Kind of all slots. -/
  coreKind : String
  /-- Hart of the first slot. -/
  hart : ℤ
  /-- The harts of all slots, in order. -/
  harts : List ℤ
deriving DecidableEq, Repr

/-- `label.upper()` as far as the comparison with the two labels can tell. -/
def upper (s : List Char) : String := String.ofList (s.map Char.toUpper)

/-- `candidates[idx]` after the range check: a negative index counts from the end. -/
def pickCore (coreLabel kind : String) (idx : ℤ) (candidates : List Core) :
    Except IngestError Core :=
  let pos := if idx < 0 then idx + candidates.length else idx
  match (if pos < 0 then none else candidates[pos.toNat]?) with
  | some c => .ok c
  | none => .error (.coreIndex coreLabel idx candidates.length kind)

/-- The slot number: zero when nothing follows the label. -/
def slotIndex (idxStr : List Char) : Except IngestError ℤ :=
  if idxStr = [] then .ok 0 else pyInt idxStr

/-- The registry kind that stands for a label. -/
def slotKind (coreLabel label : List Char) (kinds : SlotKinds) : Except IngestError String :=
  if upper label = "CPU_P" then .ok kinds.cpuPKind
  else if upper label = "CPU_E" then .ok kinds.cpuEKind
  else .error (.unknownMachineLabel (String.ofList coreLabel))

/-- Resolve one slot to a registry core. -/
def resolveTarget (coreLabel : List Char) (kinds : SlotKinds) (reg : CoreRegistry) :
    Except IngestError Core := do
  let parts := partition '#' coreLabel
  let idx ← slotIndex parts.2
  let kind ← slotKind coreLabel parts.1 kinds
  if reg.byKind kind = [] then
    .error (.noCoresOfKind reg.system kind (String.ofList coreLabel))
  else pickCore (String.ofList coreLabel) kind idx (reg.byKind kind)

/-- The slots of a combination: split at `+`, stripped, empty parts dropped. -/
def targetLabels (coreLabels : String) : List (List Char) :=
  ((coreLabels.toList.splitOn '+').map strip).filter (· ≠ [])

/-- The checks on the resolved slots of a combination. -/
def combineCores (coreLabels : String) : List Core → Except IngestError Resolved
  | [] => .error (.emptyTarget coreLabels)
  | c :: rest =>
    let harts := c.hart :: rest.map Core.hart
    if ∃ c' ∈ rest, c'.kind ≠ c.kind then
      .error (.mixedKinds coreLabels
        (((c :: rest).map Core.kind).dedup.insertionSort (· ≤ ·)))
    else if ¬harts.Nodup then .error (.sameHartTwice coreLabels harts)
    else if 1 < harts.length ∧ ∃ hart ∈ harts, hart < 0 then .error (.unboundHart coreLabels)
    else .ok ⟨c.name, c.kind, c.hart, harts⟩

/-- Resolve a slot combination. -/
def resolveTargets (coreLabels : String) (kinds : SlotKinds) (reg : CoreRegistry) :
    Except IngestError Resolved :=
  if targetLabels coreLabels = [] then .error (.emptyTarget coreLabels)
  else do
    let cores ← (targetLabels coreLabels).mapM fun label => resolveTarget label kinds reg
    combineCores coreLabels cores

variable {r : Resolved} {coreLabels : String}

/-- What the checks on a combination establish. -/
theorem combineCores_spec {cores : List Core} (h : combineCores coreLabels cores = .ok r) :
    ∃ c rest, cores = c :: rest ∧ (∀ c' ∈ rest, c'.kind = c.kind) ∧
      r.coreName = c.name ∧ r.coreKind = c.kind ∧ r.hart = c.hart ∧
      r.harts = cores.map Core.hart ∧ r.harts.Nodup ∧
      (1 < r.harts.length → ∀ hart ∈ r.harts, 0 ≤ hart) := by
  cases cores with
  | nil => cases h
  | cons c rest =>
    simp only [combineCores, Fallible.ite_error_eq_ok_iff, Except.ok.injEq] at h
    obtain ⟨hkind, hnd, hbound, rfl⟩ := h
    push Not at hkind hnd hbound
    exact ⟨c, rest, rfl, hkind, rfl, rfl, rfl, rfl, hnd, hbound⟩

/-- A resolved combination: it has at least one hart, the first one owns the dispatch, no hart
occurs twice, and all are bound when there are several. -/
theorem resolveTargets_spec {kinds : SlotKinds} {reg : CoreRegistry}
    (h : resolveTargets coreLabels kinds reg = .ok r) :
    r.harts.head? = some r.hart ∧ r.harts.Nodup ∧
      (1 < r.harts.length → ∀ hart ∈ r.harts, 0 ≤ hart) := by
  rw [resolveTargets, Fallible.ite_error_eq_ok_iff, Fallible.bind_eq_ok_iff] at h
  obtain ⟨-, cores, -, hcores⟩ := h
  obtain ⟨c, rest, rfl, -, -, -, hhart, hharts, hnd, hbound⟩ := combineCores_spec hcores
  refine ⟨?_, hnd, hbound⟩
  rw [hharts, hhart]
  rfl

end ModelBlaster
