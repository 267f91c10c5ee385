import ModelBlaster.Ingest.Order
import ModelBlaster.Skeleton.Weights

/-!
# Shard annotations

Two passes annotate ops with the number of shards that they are to be compiled for: one applies
hints, the other takes the widths from a schedule. Both refuse what they take the planner of the
code generator to skip. This file says how far they agree with it.

## Main definitions

* `NewlineInstance`: a job that only the regular expression attributes to a network;
* `Unambiguous`: what agreement requires of a job and the known networks;
* `applyShardHint`: annotate the dispatches that a hint names;
* `applyScheduleShards`: annotate the dispatches that a schedule places on several cores;
* `scheduledWidth`: the width that a schedule gives to an op;
* `AgreedHint`: a hint that a schedule agrees with;
* `RefusedAnyway`: what refuses a schedule before and after another one.

## Main results

* `attribution_agrees_iff`: the two attributions agree iff the job is unambiguous;
* `shard_annotations_planned_iff`: when the planner does what an annotation says, and when a conv
  that it could shard is accepted;
* `reingest_iff`: when the first run makes no difference to the second.
-/

/-! ## Attribution of jobs to networks -/

namespace ModelBlaster

open PyStr List

/-! ### The regular expression -/

variable {digits s : List Char} {job n : String}

/-- What `\d+$` accepts: digits, and behind them at most a newline. -/
theorem trailingDigits?_eq_some_iff :
    trailingDigits? s = some digits ↔
      digits ≠ [] ∧ (∀ c ∈ digits, isDecimalChar c = true) ∧
        (s = digits ∨ s = digits ++ ['\n']) := by
  have hsplit := takeWhile_append_dropWhile (p := isDecimalChar) (l := s)
  simp only [trailingDigits?]
  constructor
  · intro h
    split_ifs at h with hcond
    cases h
    refine ⟨hcond.1, fun c hc => mem_takeWhile_imp hc, ?_⟩
    rcases hcond.2 with hrest | hrest
    · left
      rw [hrest, append_nil] at hsplit
      exact hsplit.symm
    · right
      rw [hrest] at hsplit
      exact hsplit.symm
  · rintro ⟨hne, hall, rfl | rfl⟩
    · have htake : s.takeWhile isDecimalChar = s := takeWhile_eq_self_iff.mpr hall
      have hdrop : s.dropWhile isDecimalChar = [] := dropWhile_eq_nil_iff.mpr hall
      simp [htake, hdrop, hne]
    · have hnl : isDecimalChar '\n' = false := by decide
      have htake : (digits ++ ['\n']).takeWhile isDecimalChar = digits := by
        rw [takeWhile_append_of_pos hall]
        simp [hnl]
      have hdrop : (digits ++ ['\n']).dropWhile isDecimalChar = ['\n'] := by
        rw [dropWhile_append_of_pos hall]
        simp [hnl]
      simp [htake, hdrop, hne]

/-- What the regular expression matches: the base is nonempty and free of newlines, digits
follow it, and no shorter base would do. -/
theorem instanceMatch_eq_some_iff {acc base : List Char} :
    instanceMatch acc s = some (base, digits) ↔
      ∃ t rest, base = acc ++ t ∧ s = t ++ rest ∧ t ≠ [] ∧ '\n' ∉ t ∧
        trailingDigits? rest = some digits ∧
        ∀ t' rest', s = t' ++ rest' → t' ≠ [] → t'.length < t.length →
          trailingDigits? rest' = none := by
  induction s generalizing acc with
  | nil =>
    simp only [instanceMatch, reduceCtorEq, false_iff, not_exists]
    rintro t rest ⟨-, hs, hne, -⟩
    exact hne (append_eq_nil_iff.mp hs.symm).1
  | cons c s ih =>
    rw [instanceMatch]
    by_cases hnl : c = '\n'
    · subst hnl
      simp only [if_true, reduceCtorEq, false_iff, not_exists]
      rintro t rest ⟨-, hs, hne, hmem, -⟩
      cases t with
      | nil => exact hne rfl
      | cons d t =>
        rw [cons_append, List.cons.injEq] at hs
        exact hmem (hs.1 ▸ mem_cons_self)
    · rw [if_neg hnl]
      cases htrail : trailingDigits? s with
      | some ds =>
        simp only [Option.some.injEq, Prod.mk.injEq]
        constructor
        · rintro ⟨rfl, rfl⟩
          refine ⟨[c], s, rfl, rfl, by simp, by simpa using Ne.symm hnl, htrail, ?_⟩
          intro t' rest' _ hne hlt
          rw [length_singleton, Nat.lt_one_iff, length_eq_zero_iff] at hlt
          exact absurd hlt hne
        · rintro ⟨t, rest, rfl, hs, hne, -, hrest, hmin⟩
          cases t with
          | nil => exact absurd rfl hne
          | cons d t =>
            rw [cons_append, List.cons.injEq] at hs
            obtain ⟨rfl, hs⟩ := hs
            cases t with
            | nil =>
              subst hs
              rw [htrail] at hrest
              exact ⟨rfl, Option.some.inj hrest⟩
            | cons e t =>
              have := hmin [c] s rfl (by simp) (by simp)
              rw [htrail] at this
              cases this
      | none =>
        rw [ih]
        constructor
        · rintro ⟨t, rest, rfl, rfl, hne, hmem, hrest, hmin⟩
          refine ⟨c :: t, rest, by simp, rfl, by simp, ?_, hrest, ?_⟩
          · simpa [hmem] using Ne.symm hnl
          · intro t' rest' hs hne' hlt
            cases t' with
            | nil => exact absurd rfl hne'
            | cons d t' =>
              rw [cons_append, List.cons.injEq] at hs
              cases t' with
              | nil => rw [← nil_append rest', ← hs.2]; exact htrail
              | cons e t' =>
                exact hmin (e :: t') rest' hs.2 (by simp)
                  (by rw [length_cons, length_cons] at hlt; simpa using hlt)
        · rintro ⟨t, rest, rfl, hs, hne, hmem, hrest, hmin⟩
          cases t with
          | nil => exact absurd rfl hne
          | cons d t =>
            rw [cons_append, List.cons.injEq] at hs
            obtain ⟨rfl, hs⟩ := hs
            cases t with
            | nil =>
              rw [nil_append] at hs
              rw [hs, hrest] at htrail
              cases htrail
            | cons e t =>
              refine ⟨e :: t, rest, by simp, hs, by simp, fun h => hmem (by simp [h]), hrest, ?_⟩
              intro t' rest' hs' hne' hlt
              exact hmin (c :: t') rest' (by rw [hs', cons_append]) (by simp) (by simpa using hlt)

/-! ### Agreement -/

/-- `job` is `network`, then digits that `int()` accepts, then a newline, and `network` is as
short as it can be: no accepted network, but the regular expression cuts it out. -/
def NewlineInstance (job network : String) : Prop :=
  ∃ digits, job.toList = network.toList ++ digits ++ ['\n'] ∧ network.toList ≠ [] ∧
    '\n' ∉ network.toList ∧ digits ≠ [] ∧ (∀ c ∈ digits, isDecimalChar c = true) ∧
    (∃ i, int? digits = some i) ∧
    ∀ t suffix, network.toList = t ++ suffix → t ≠ [] → suffix ≠ [] →
      ∃ c ∈ suffix, isDecimalChar c = false

/-- What agreement requires: at most one known network accepts the job, the suffix behind it
is one that `int()` accepts, and a job that is no known network is not cut at a known network
before a final newline. -/
structure Unambiguous (job : String) (known : List String) : Prop where
  /-- At most one known network accepts the job. -/
  unique : ∀ n ∈ known, ∀ m ∈ known, isInstance job n = true → isInstance job m = true → n = m
  /-- The suffix behind an accepted network is an integer literal. -/
  suffix_int : ∀ n ∈ known, job ≠ n → isInstance job n = true →
    ∃ i, int? (job.toList.drop n.toList.length) = some i
  /-- The regular expression finds no known network before a final newline. -/
  not_newline : job ∉ known → ∀ n ∈ known, ¬NewlineInstance job n

private theorem not_isInstance_of_newline {m : String} (hnl : NewlineInstance job n) (hm : job ≠ m) :
    isInstance job m = false := by
  by_contra hinst
  rw [Bool.not_eq_false, isInstance_iff] at hinst
  obtain ⟨suffix, hdigit, hjob⟩ := hinst.resolve_left hm
  obtain ⟨digits, hjob', -⟩ := hnl
  simp only [isdigit, Bool.and_eq_true, all_eq_true] at hdigit
  rcases eq_nil_or_concat suffix with rfl | ⟨front, c, rfl⟩
  · simp at hdigit
  · have hlast : c = '\n' := by
      have := congrArg List.getLast? (hjob.symm.trans hjob')
      simpa using this
    have hdig := hdigit.2 c (by simp)
    rw [hlast, isDigitChar_newline] at hdig
    cases hdig

/-- The regular expression cuts a job at a network that does not accept it only before a
final newline. -/
private theorem splitTrailingDigits_eq_ok_iff (hnot : isInstance job n = false) :
    (∃ i, splitTrailingDigits job = .ok (n, i)) ↔ NewlineInstance job n := by
  have hjob : job ≠ n := by
    rintro rfl
    simp [isInstance] at hnot
  unfold splitTrailingDigits
  constructor
  · rintro ⟨i, h⟩
    split at h
    next => exact absurd (by simpa using congrArg (fun r => r.toOption) h) (by simp [Except.toOption, hjob])
    next base digits hmatch =>
      obtain ⟨t, rest, hbase, hs, hne, hmem, hrest, hmin⟩ := instanceMatch_eq_some_iff.mp hmatch
      subst hbase
      rw [pyInt] at h
      cases hint : int? digits with
      | none =>
        rw [hint] at h
        cases h
      | some k =>
        rw [hint] at h
        simp only [Except.map, Except.ok.injEq, Prod.mk.injEq] at h
        obtain ⟨rfl, rfl⟩ := h
        obtain ⟨hdne, hdall, hrest' | hrest'⟩ := trailingDigits?_eq_some_iff.mp hrest
        · exfalso
          have hacc : isInstance job (String.ofList base) = true := by
            refine isInstance_iff.mpr (Or.inr ⟨digits, ?_, ?_⟩)
            · simp only [isdigit, Bool.and_eq_true, all_eq_true]
              exact ⟨by simpa using hdne, fun c hc => isDigitChar_of_decimal (hdall c hc)⟩
            · rw [hs, hrest', String.toList_ofList]
          rw [hnot] at hacc
          cases hacc
        · refine ⟨digits, ?_, ?_, ?_, hdne, hdall, ⟨k, hint⟩, ?_⟩
          · rw [hs, hrest', String.toList_ofList, append_assoc]
          · rwa [String.toList_ofList]
          · rwa [String.toList_ofList]
          · intro u suffix hu hune hsne
            rw [String.toList_ofList] at hu
            by_contra hall
            push Not at hall
            have hnone := hmin u (suffix ++ rest) (by rw [hs, hu, append_assoc]) hune (by
              rw [hu, length_append]
              have := length_pos_iff.mpr hsne
              omega)
            rw [hrest', ← append_assoc] at hnone
            have hsome : trailingDigits? (suffix ++ digits ++ ['\n']) = some (suffix ++ digits) := by
              refine trailingDigits?_eq_some_iff.mpr ⟨by simp [hsne], fun c hc => ?_, Or.inr rfl⟩
              rcases mem_append.mp hc with hc | hc
              · simpa using hall c hc
              · exact hdall c hc
            rw [hsome] at hnone
            cases hnone
  · rintro ⟨digits, hs, hne, hmem, hdne, hdall, ⟨i, hint⟩, hmin⟩
    have hmatch : instanceMatch [] job.toList = some (n.toList, digits) := by
      refine instanceMatch_eq_some_iff.mpr ⟨n.toList, digits ++ ['\n'], rfl, ?_, hne, hmem, ?_, ?_⟩
      · rw [hs, append_assoc]
      · exact trailingDigits?_eq_some_iff.mpr ⟨hdne, hdall, Or.inr rfl⟩
      · intro u rest hu hune hlt
        by_contra hsome
        obtain ⟨ds, hds⟩ := Option.ne_none_iff_exists'.mp hsome
        -- the shorter base leaves a suffix of the network in the digits
        have hprefix : u <+: n.toList := prefix_of_prefix_length_le ⟨rest, hu.symm⟩
            ⟨digits ++ ['\n'], by rw [hs, append_assoc]⟩ hlt.le
        obtain ⟨suffix, hsuffix⟩ := hprefix
        have hsne : suffix ≠ [] := by
          rintro rfl
          rw [append_nil] at hsuffix
          rw [hsuffix] at hlt
          exact lt_irrefl _ hlt
        have hrest : rest = suffix ++ (digits ++ ['\n']) := by
          have : u ++ rest = u ++ (suffix ++ (digits ++ ['\n'])) := by
            rw [← hu, hs, ← hsuffix]
            simp
          exact append_cancel_left this
        obtain ⟨c, hc, hcdec⟩ := hmin u suffix hsuffix.symm hune hsne
        obtain ⟨-, hdsall, hds' | hds'⟩ := trailingDigits?_eq_some_iff.mp hds
        · have := hdsall c (by rw [← hds', hrest]; simp [hc])
          rw [this] at hcdec
          cases hcdec
        · have hfront : suffix ++ digits = ds := by
            have : (suffix ++ digits) ++ ['\n'] = ds ++ ['\n'] := by
              rw [← hds', hrest, append_assoc]
            exact append_cancel_right this
          have := hdsall c (by rw [← hfront]; simp [hc])
          rw [this] at hcdec
          cases hcdec
    refine ⟨i, ?_⟩
    rw [hmatch]
    simp [pyInt, hint, Except.map]

/-- The network to which `schedule_shards` attributes a job is the network to which the
ingest attributes it, for every known network, iff the job is unambiguous. -/
theorem attribution_agrees_iff (job : String) (known : List String) :
    (∀ n ∈ known, isInstance job n = true ↔ ∃ i, splitJobName job known = .ok (n, i)) ↔
      Unambiguous job known := by
  constructor
  · intro h
    have hunique : ∀ n ∈ known, ∀ m ∈ known, isInstance job n = true →
        isInstance job m = true → n = m := by
      intro n hn m hm hjn hjm
      obtain ⟨i, hi⟩ := (h n hn).mp hjn
      obtain ⟨j, hj⟩ := (h m hm).mp hjm
      rw [hi] at hj
      cases hj
      rfl
    refine ⟨hunique, fun n hn hne hjn => ?_, fun hjob n hn hnl => ?_⟩
    · obtain ⟨i, hi⟩ := (h n hn).mp hjn
      cases hfind : (longestFirst known).find? (isInstance job) with
      | none =>
        exact absurd hjn (find?_eq_none.mp hfind n (mem_longestFirst.mpr hn))
      | some m =>
        have hm := mem_longestFirst.mp (mem_of_find?_eq_some hfind)
        have hnm := hunique n hn m hm hjn (find?_some hfind)
        subst hnm
        rw [splitJobName_of_find hfind, splitAt_eq_ok_iff] at hi
        exact ⟨i, (hi.2.resolve_left fun heq => hne heq.1).2⟩
    · have hnone : ∀ m ∈ known, isInstance job m = false := fun m hm =>
        not_isInstance_of_newline hnl fun heq => hjob (heq ▸ hm)
      have hsplit := (splitTrailingDigits_eq_ok_iff (hnone n hn)).mpr hnl
      rw [← splitJobName_of_none hnone] at hsplit
      have := (h n hn).mpr hsplit
      rw [hnone n hn] at this
      cases this
  · intro h n hn
    cases hfind : (longestFirst known).find? (isInstance job) with
    | some m =>
      have hm := mem_longestFirst.mp (mem_of_find?_eq_some hfind)
      have hjm := find?_some hfind
      rw [splitJobName_of_find hfind]
      constructor
      · intro hjn
        have hnm := h.unique n hn m hm hjn hjm
        subst hnm
        by_cases hjob : job = n
        · exact ⟨0, splitAt_eq_ok_iff.mpr ⟨rfl, Or.inl ⟨hjob, rfl⟩⟩⟩
        · obtain ⟨i, hi⟩ := h.suffix_int n hn hjob hjn
          exact ⟨i, splitAt_eq_ok_iff.mpr ⟨rfl, Or.inr ⟨hjob, hi⟩⟩⟩
      · rintro ⟨i, hi⟩
        rw [(splitAt_eq_ok_iff.mp hi).1]
        exact hjm
    | none =>
      have hnone : ∀ m ∈ known, isInstance job m = false := fun m hm => by
        have := find?_eq_none.mp hfind m (mem_longestFirst.mpr hm)
        simpa using this
      rw [splitJobName_of_none hnone, hnone n hn]
      simp only [Bool.false_eq_true, false_iff]
      intro hsplit
      have hnl := (splitTrailingDigits_eq_ok_iff (hnone n hn)).mp hsplit
      refine h.not_newline (fun hjob => ?_) n hn hnl
      have := hnone job hjob
      simp [isInstance] at this

/-- With the networks `yolo` and `yolo6`, the job `yolo64` is an instance of both, and the
ingest attributes it to `yolo6` only. -/
theorem attribution_disagrees_on_yolo64 :
    ¬∀ n ∈ ["yolo", "yolo6"], isInstance "yolo64" n = true ↔
      ∃ i, splitJobName "yolo64" ["yolo", "yolo6"] = .ok (n, i) := by
  intro h
  obtain ⟨i, hi⟩ := (h "yolo" (by simp)).mp (by decide)
  have hsplit : splitJobName "yolo64" ["yolo", "yolo6"] = .ok ("yolo6", 4) := by
    decide
  rw [hsplit] at hi
  simp at hi

end ModelBlaster

namespace ModelBlaster

open List Fallible PyDict

/-! ### Hints -/

/-- `SHARDABLE_OPS` -/
def shardableOps : List String :=
  ["conv2d_s8", "conv2d_batchnorm2d_s8", "conv2d_batchnorm2d_silu_s8", "conv2d_silu_s8",
    "linear_s8", "matmul_s8"]

/-- `_oc_of` -/
def ocOf (op : GraphOp) : ℕ :=
  match op.shape.get? "OC" with
  | some n => n
  | none => (op.shape.get? "N").getD 0

/-- Why a hint or a schedule is refused. -/
inductive ShardError where
  /-- The hint asks for one shard or none. -/
  | notSharded (did n : ℤ)
  /-- The graph has no such dispatch. -/
  | unknownDispatch (did : ℤ)
  /-- The kind has no sharded emitter. -/
  | noEmitter (did : ℤ) (kind : String)
  /-- The dispatch is a tile. -/
  | splitTile (did : ℤ)
  /-- The width does not divide the output channels. -/
  | indivisible (did : ℤ) (oc : ℕ) (n : ℤ)
  /-- Instances of one dispatch have different widths. -/
  | varyingWidths (did : ℤ)
  /-- The dispatch asks for another width already. -/
  | otherWidth (did : ℤ) (explicit : ℤ) (width : ℕ)
deriving DecidableEq, Repr

/-- The position of a dispatch in `by_id`, where the last one stays. -/
def positionOf (ops : List GraphOp) (did : ℤ) : Option ℕ :=
  (ops.zipIdx.reverse.find? fun p => p.1.dispatchId = some did).map Prod.snd

/-- Apply one entry of a hint, a dispatch id and a number of shards. -/
def applyShardEntry (ops : List GraphOp) (entry : ℤ × ℤ) : Except ShardError (List GraphOp) :=
  let (did, n) := entry
  if n ≤ 1 then .error (.notSharded did n)
  else
    match positionOf ops did with
    | none => .error (.unknownDispatch did)
    | some i =>
      match ops[i]? with
      | none => .error (.unknownDispatch did)
      | some op =>
        if op.op ∉ shardableOps then .error (.noEmitter did op.op)
        else if op.splitFrom ≠ none then .error (.splitTile did)
        else if ocOf op = 0 ∨ (ocOf op : ℤ) % n ≠ 0 then .error (.indivisible did (ocOf op) n)
        else .ok (ops.set i { op with shardFactor := some n })

/-- `apply_shard_hint` -/
def applyShardHint (ops : List GraphOp) (shardOps : List (ℤ × ℤ)) :
    Except ShardError (List GraphOp) :=
  shardOps.foldlM applyShardEntry ops

/-! ### Schedules -/

/-- What a schedule says of one dispatch. -/
structure ScheduleSlot where
  /-- `job_name` -/
  jobName : String
  /-- `id` -/
  id : ℤ
  /-- `hardware_target` -/
  hardwareTarget : String
deriving DecidableEq, Repr

/-- `_PACKED_WEIGHT_SHARD_OPS` -/
def packedWeightShardOps : List String :=
  ["conv2d_s8", "conv2d_batchnorm2d_s8", "conv2d_batchnorm2d_silu_s8", "conv2d_silu_s8"]

/-- `_output_channels` -/
def outputChannels (op : GraphOp) : ℕ :=
  match op.shape.get? "OC" with
  | some n => n
  | none =>
    match op.subOps.find? GraphOp.isConv2d with
    | some sub => (sub.shape.get? "OC").getD 0
    | none => 0

/-- The widths that a schedule gives to a dispatch of a network. -/
def widthsOf (schedule : List ScheduleSlot) (network : String) (did : ℤ) : List ℕ :=
  ((schedule.filter fun slot => isInstance slot.jobName network ∧ slot.id = did).map fun slot =>
    (targetLabels slot.hardwareTarget).length).dedup

/-- Remove the annotation of an earlier run. Explicit hints stay. -/
def dropScheduleShards (op : GraphOp) : GraphOp :=
  if op.xpurtScheduleShardFactor then
    { op with xpurtScheduleShardFactor := false, shardFactor := none }
  else op

/-- Annotate one op, without an annotation of an earlier run. -/
def applyScheduleSlot (schedule : List ScheduleSlot) (network : String) (op : GraphOp) :
    Except ShardError GraphOp :=
  match op.dispatchId with
  | none => .ok op
  | some did =>
    if op.op ∉ packedWeightShardOps then .ok op
    else
      let width := (widthsOf schedule network did).headD 1
      if width ≤ 1 then .ok op
      else if outputChannels op = 0 ∨ outputChannels op % width ≠ 0 then
        .error (.indivisible did (outputChannels op) width)
      else
        match op.shardFactor with
        | some explicit =>
          if explicit ≠ width then .error (.otherWidth did explicit width)
          else .ok { op with shardFactor := some (width : ℤ), xpurtScheduleShardFactor := true }
        | none => .ok { op with shardFactor := some (width : ℤ), xpurtScheduleShardFactor := true }

/-- `apply_schedule_shards` -/
def applyScheduleShards (ops : List GraphOp) (schedule : List ScheduleSlot) (network : String) :
    Except ShardError (List GraphOp) :=
  match schedule.find? fun slot =>
      isInstance slot.jobName network ∧ 1 < (widthsOf schedule network slot.id).length with
  | some slot => .error (.varyingWidths slot.id)
  | none => ops.mapM fun op => applyScheduleSlot schedule network (dropScheduleShards op)

/-! ### What the passes accept -/

/-- What a hint asks of an op. -/
def AcceptsShards (op : GraphOp) (n : ℤ) : Prop :=
  1 < n ∧ op.op ∈ shardableOps ∧ op.splitFrom = none ∧ 0 < ocOf op ∧ n ∣ ocOf op

variable {ops out : List GraphOp} {did : ℤ} {i n : ℕ} {op op' : GraphOp}
  {schedule : List ScheduleSlot} {network : String}

/-- The position of a dispatch holds an op with its id. -/
theorem getElem?_of_positionOf (h : positionOf ops did = some i) :
    ∃ op, ops[i]? = some op ∧ op.dispatchId = some did := by
  obtain ⟨⟨op, j⟩, hfind, rfl⟩ := Option.map_eq_some_iff.mp h
  have hmem := mem_reverse.mp (mem_of_find?_eq_some hfind)
  exact ⟨op, mem_zipIdx_iff_getElem?.mp hmem, by simpa using find?_some hfind⟩

/-- A dispatch of the graph has a position. -/
theorem exists_positionOf (hop : op ∈ ops) (hdid : op.dispatchId = some did) :
    ∃ i, positionOf ops did = some i := by
  obtain ⟨i, hi⟩ := mem_iff_getElem?.mp hop
  have hmem : (op, i) ∈ ops.zipIdx.reverse := mem_reverse.mpr (mem_zipIdx_iff_getElem?.mpr hi)
  rw [positionOf]
  cases hfind : ops.zipIdx.reverse.find? fun p => p.1.dispatchId = some did with
  | none => exact absurd hdid (by simpa using find?_eq_none.mp hfind _ hmem)
  | some p => exact ⟨p.2, rfl⟩

/-- An entry of a hint annotates an op that accepts it. -/
theorem applyShardEntry_eq_ok_iff {ops' : List GraphOp} {n : ℤ} :
    applyShardEntry ops (did, n) = .ok ops' ↔
      ∃ i op, positionOf ops did = some i ∧ ops[i]? = some op ∧ AcceptsShards op n ∧
        ops' = ops.set i { op with shardFactor := some n } := by
  simp only [applyShardEntry, ite_error_eq_ok_iff]
  cases hpos : positionOf ops did with
  | none => simp
  | some i =>
    obtain ⟨op, hget, -⟩ := getElem?_of_positionOf hpos
    simp only [hget, ite_error_eq_ok_iff, Except.ok.injEq, AcceptsShards, not_or,
      Option.some.injEq, exists_and_left, exists_eq_left', Int.dvd_iff_emod_eq_zero, not_not,
      not_le, Nat.pos_iff_ne_zero, eq_comm (a := ops')]
    tauto

/-- An annotation changes no dispatch id. -/
private theorem dispatchIds_set (hget : ops[i]? = some op) (hdid : op'.dispatchId = op.dispatchId) :
    dispatchIds (ops.set i op') = dispatchIds ops := by
  have hmap : (ops.set i op').map GraphOp.dispatchId = ops.map GraphOp.dispatchId := by
    apply ext_getElem?
    intro j
    rw [getElem?_map, getElem?_map, getElem?_set]
    split_ifs with hij hlen
    · rw [← hij, hget, Option.map_some, Option.map_some, hdid]
    · rw [getElem?_eq_none (by omega)]
    · rfl
  have hids : ∀ l : List GraphOp, dispatchIds l = (l.map GraphOp.dispatchId).filterMap id := by
    intro l
    rw [filterMap_map]
    rfl
  rw [hids, hids, hmap]

/-- A hint leaves the dispatch ids alone, and the dispatches that it names are annotated with a
width that they accept. -/
theorem applyShardHint_spec (hnd : (dispatchIds ops).Nodup) {shardOps : List (ℤ × ℤ)}
    (h : applyShardHint ops shardOps = .ok out) :
    dispatchIds out = dispatchIds ops ∧
      ∀ entry ∈ shardOps, ∀ op ∈ out, op.dispatchId = some entry.1 →
        ∃ n : ℤ, op.shardFactor = some n ∧ AcceptsShards op n := by
  refine foldlM_invariant (P := fun done out => dispatchIds out = dispatchIds ops ∧
      ∀ entry ∈ done, ∀ op ∈ out, op.dispatchId = some entry.1 →
        ∃ n : ℤ, op.shardFactor = some n ∧ AcceptsShards op n)
    ?_ ⟨rfl, fun entry (hentry : entry ∈ []) => absurd hentry not_mem_nil⟩ h
  rintro done ⟨did, n⟩ ops₁ ops₂ ⟨hids, hdone⟩ hstep
  obtain ⟨i, op, hpos, hget, haccepts, rfl⟩ := applyShardEntry_eq_ok_iff.mp hstep
  obtain ⟨_, hget', hdid⟩ := getElem?_of_positionOf hpos
  rw [hget] at hget'
  cases hget'
  have hids' : dispatchIds (ops₁.set i { op with shardFactor := some n }) = dispatchIds ops₁ :=
    dispatchIds_set hget rfl
  refine ⟨hids'.trans hids, ?_⟩
  have hnd' : (dispatchIds (ops₁.set i { op with shardFactor := some n })).Nodup := by
    rwa [hids', hids]
  have hnew : { op with shardFactor := some n } ∈ ops₁.set i { op with shardFactor := some n } :=
    mem_set (List.getElem?_eq_some_iff.mp hget).1 _
  intro entry hentry x hx hxid
  rcases mem_append.mp hentry with hold | hlast
  · rcases mem_or_eq_of_mem_set hx with hmem | rfl
    · exact hdone entry hold x hmem hxid
    · exact ⟨n, rfl, haccepts⟩
  · rw [mem_singleton] at hlast
    subst hlast
    obtain rfl := eq_of_dispatchIds_nodup hnd' hx hnew hxid hdid
    exact ⟨n, rfl, haccepts⟩

/-- A hint for one dispatch is accepted iff the dispatch accepts it. -/
theorem applyShardHint_single_iff (hnd : (dispatchIds ops).Nodup) (hop : op ∈ ops)
    (hdid : op.dispatchId = some did) (n : ℤ) :
    (∃ out, applyShardHint ops [(did, n)] = .ok out) ↔ AcceptsShards op n := by
  obtain ⟨i, hpos⟩ := exists_positionOf hop hdid
  obtain ⟨op', hget, hdid'⟩ := getElem?_of_positionOf hpos
  obtain rfl := eq_of_dispatchIds_nodup hnd (mem_of_getElem? hget) hop hdid' hdid
  simp only [applyShardHint, foldlM_cons, foldlM_nil, bind_eq_ok_iff,
    applyShardEntry_eq_ok_iff, hpos, Option.some.injEq]
  constructor
  · rintro ⟨out, _, ⟨_, op, rfl, hget', haccepts, -⟩, -⟩
    rw [hget] at hget'
    cases hget'
    exact haccepts
  · exact fun haccepts => ⟨_, _, ⟨i, op', rfl, hget, haccepts, rfl⟩, rfl⟩

/-- An op without an annotation of an earlier run is left alone, or annotated with a width that
divides its output channels. -/
theorem applyScheduleSlot_spec (h : applyScheduleSlot schedule network op = .ok op') :
    op' = op ∨ ∃ (did : ℤ) (n : ℕ), op.dispatchId = some did ∧ 1 < n ∧
      op.op ∈ packedWeightShardOps ∧ 0 < outputChannels op ∧ n ∣ outputChannels op ∧
      op' = { op with shardFactor := some (n : ℤ), xpurtScheduleShardFactor := true } := by
  unfold applyScheduleSlot at h
  cases hdid : op.dispatchId with
  | none =>
    rw [hdid] at h
    cases h
    exact Or.inl rfl
  | some did =>
    simp only [hdid] at h
    by_cases hkind : op.op ∉ packedWeightShardOps
    · rw [if_pos hkind] at h
      cases h
      exact Or.inl rfl
    by_cases hwidth : (widthsOf schedule network did).headD 1 ≤ 1
    · rw [if_neg hkind, if_pos hwidth] at h
      cases h
      exact Or.inl rfl
    rw [if_neg hkind, if_neg hwidth, ite_error_eq_ok_iff, not_or, not_not] at h
    obtain ⟨⟨hpos, hdvd⟩, h⟩ := h
    right
    refine ⟨did, _, rfl, not_le.mp hwidth, not_not.mp hkind, Nat.pos_of_ne_zero hpos,
      Nat.dvd_of_mod_eq_zero hdvd, ?_⟩
    split at h
    · rw [ite_error_eq_ok_iff] at h
      obtain ⟨-, h⟩ := h
      cases h
      rfl
    · cases h
      rfl

/-- An annotation of an earlier run does not stay. -/
@[simp]
theorem dropScheduleShards_marker (op : GraphOp) :
    (dropScheduleShards op).xpurtScheduleShardFactor = false := by
  unfold dropScheduleShards
  split_ifs with h
  · rfl
  · simpa using h

/-- A schedule leaves the dispatch ids alone, and the ops that are annotated behind it accept their
width. -/
theorem applyScheduleShards_spec (h : applyScheduleShards ops schedule network = .ok out) :
    dispatchIds out = dispatchIds ops ∧
      ∀ op ∈ out, op.xpurtScheduleShardFactor = true →
        ∃ (did : ℤ) (n : ℕ), op.dispatchId = some did ∧ op.shardFactor = some (n : ℤ) ∧ 1 < n ∧
          op.op ∈ packedWeightShardOps ∧ 0 < outputChannels op ∧ n ∣ outputChannels op := by
  unfold applyScheduleShards at h
  split at h
  · cases h
  have hall := mapM_eq_ok_iff.mp h
  clear h
  induction hall with
  | nil => exact ⟨rfl, fun op hop => absurd hop not_mem_nil⟩
  | @cons op op' ops out hstep _ ih =>
    have hid : op'.dispatchId = op.dispatchId := by
      have hdrop : (dropScheduleShards op).dispatchId = op.dispatchId := by
        unfold dropScheduleShards
        split_ifs <;> rfl
      rcases applyScheduleSlot_spec hstep with rfl | ⟨_, _, _, _, _, _, _, rfl⟩ <;> exact hdrop
    refine ⟨?_, fun x hx hmarked => ?_⟩
    · rw [dispatchIds, dispatchIds, filterMap_cons, filterMap_cons, hid]
      have := ih.1
      rw [dispatchIds, dispatchIds] at this
      rw [this]
    · rcases mem_cons.mp hx with rfl | hmem
      · rcases applyScheduleSlot_spec hstep with rfl | ⟨did, n, hdid, hn, hkind, hpos, hdvd, rfl⟩
        · simp at hmarked
        · exact ⟨did, n, hdid, rfl, hn, hkind, hpos, hdvd⟩
      · exact ih.2 x hmem hmarked

/-! ### Against the planner -/

/-- The planner of the code generator compiles the dispatch for `n` shards. -/
def Planned (ops : List GraphOp) (layout : Option WeightLayout) (factor : ℕ) (did : ℤ) (n : ℕ) :
    Prop :=
  ∃ spec, (shardConvWeights ops layout factor).get? did = some spec ∧ spec.nShards = n

/-- When an annotation is planned. -/
theorem planned_iff (hnd : (dispatchIds ops).Nodup) {layout : Option WeightLayout}
    (hrepacks : Repacks layout) (factor : ℕ) (hop : op ∈ ops) (hdid : op.dispatchId = some did)
    (hn : op.shardFactor = some (n : ℤ)) (hwide : 1 < n) :
    Planned ops layout factor did n ↔
      Shardable op ∧ 0 < convOutputChannels op ∧ n ∣ convOutputChannels op := by
  have hfactor : factorFor factor op = n := by
    rw [factorFor, hn]
    simp only [Int.toNat_natCast]
    rw [if_neg (by omega), max_eq_right (by omega)]
  have hop' : ∀ {op'}, op' ∈ ops → op'.dispatchId = some did → op' = op :=
    fun hmem hdid' => eq_of_dispatchIds_nodup hnd hmem hop hdid' hdid
  unfold Planned
  simp only [get?_shardConvWeights hnd, hrepacks, true_and, shardEntry_eq_some_iff]
  constructor
  · rintro ⟨spec, ⟨op', hmem, hshardable, hdid', -, -, hpos, hdvd, -⟩, -⟩
    obtain rfl := hop' hmem hdid'
    rw [hfactor] at hdvd
    exact ⟨hshardable, hpos, hdvd⟩
  · rintro ⟨hshardable, hpos, hdvd⟩
    obtain ⟨weight, hweight⟩ := Option.ne_none_iff_exists'.mp hshardable.2.1
    refine ⟨⟨weight, convOutputChannels op / n, n⟩, ⟨op, hop, hshardable, hdid, hweight, ?_⟩, rfl⟩
    rw [hfactor]
    exact ⟨hwide, hpos, hdvd, rfl, rfl⟩

/-- The planner reads the output channels off the op's own shape, if it has one. -/
theorem convOutputChannels_of_shape (h : op.shape.items ≠ []) :
    convOutputChannels op = (op.shape.get? "OC").getD 0 := by
  rw [convOutputChannels, convShapeOf, if_pos h]

/-- A shape with a size is not empty. -/
private theorem items_ne_nil_of_get? {shape : PyDict String ℕ} {key : String}
    (h : shape.get? key = some n) : shape.items ≠ [] := by
  intro hnil
  have hmem := mem_items_iff.mpr h
  rw [hnil] at hmem
  cases hmem

/-- Hints and planner read the same output channels iff the op's shape has them. -/
private theorem planned_of_accepts (h : AcceptsShards op n) :
    (Shardable op ∧ 0 < convOutputChannels op ∧ n ∣ convOutputChannels op) ↔
      op.op ∈ ocSliceableConvOps ∧ convWeightOf op ≠ none ∧ "OC" ∈ op.shape.keys := by
  obtain ⟨-, -, hsplit, hpos, hdvd⟩ := h
  have hoc : "OC" ∈ op.shape.keys → convOutputChannels op = ocOf op := by
    intro hkey
    obtain ⟨oc, hoc⟩ := mem_keys_iff.mp hkey
    rw [convOutputChannels_of_shape (items_ne_nil_of_get? hoc), ocOf, hoc]
    rfl
  constructor
  · rintro ⟨hshardable, hconv, -⟩
    refine ⟨hshardable.1, hshardable.2.1, ?_⟩
    by_contra hkey
    have hnone := get?_eq_none_iff.mpr hkey
    -- Then the hint has read the size `N`, so that there is a shape.
    rw [ocOf, hnone] at hpos
    cases hN : op.shape.get? "N" with
    | none => simp [hN] at hpos
    | some N =>
      rw [convOutputChannels_of_shape (items_ne_nil_of_get? hN), hnone] at hconv
      exact lt_irrefl 0 hconv
  · rintro ⟨hkind, hweight, hkey⟩
    rw [hoc hkey]
    exact ⟨⟨hkind, hweight, hsplit⟩, hpos, Int.natCast_dvd_natCast.mp hdvd⟩

/-- Schedules and planner read the same output channels iff the op has no shape of its own, or one
with the output channels. -/
private theorem convOutputChannels_iff (hpos : 0 < outputChannels op) (hdvd : n ∣ outputChannels op)
    :
    (0 < convOutputChannels op ∧ n ∣ convOutputChannels op) ↔
      op.shape.items = [] ∨ "OC" ∈ op.shape.keys := by
  by_cases hshape : op.shape.items = []
  · refine iff_of_true ?_ (Or.inl hshape)
    have hnone : op.shape.get? "OC" = none := by
      rw [get?_eq_none_iff, PyDict.keys, hshape]
      exact not_mem_nil
    have hsame : convOutputChannels op = outputChannels op := by
      rw [outputChannels, hnone] at hpos ⊢
      rw [convOutputChannels, convShapeOf, if_neg (not_not.mpr hshape)]
      cases hsub : op.subOps.find? GraphOp.isConv2d with
      | none => simp [hsub] at hpos
      | some sub =>
        simp only [hsub] at hpos ⊢
        -- The first conv has output channels, so that it is the first one with a shape.
        have hitems : sub.shape.items ≠ [] := by
          cases hget : sub.shape.get? "OC" with
          | none => simp [hget] at hpos
          | some oc => exact items_ne_nil_of_get? hget
        obtain ⟨hconv, before, after, hlist, hbefore⟩ := find?_eq_some_iff_append.mp hsub
        have hfind : op.subOps.find? (fun sub => sub.isConv2d ∧ sub.shape.items ≠ []) =
            some sub := by
          rw [find?_eq_some_iff_append]
          refine ⟨by simp [hconv, hitems], before, after, hlist, fun a ha => ?_⟩
          simp_all
        rw [hfind]
    rw [hsame]
    exact ⟨hpos, hdvd⟩
  · rw [convOutputChannels_of_shape hshape, or_iff_right hshape]
    rw [outputChannels] at hpos hdvd
    cases hget : op.shape.get? "OC" with
    | none => simp [get?_eq_none_iff.mp hget]
    | some oc =>
      rw [hget] at hpos hdvd
      exact iff_of_true ⟨hpos, hdvd⟩ (mem_keys_of_get? hget)

/-- On a backend that stores conv weights in another order:

* a dispatch that a hint has annotated is planned for its width iff it is a conv of the planner
  with a weight and has its output channels in its own shape;
* a dispatch that a schedule has annotated is planned for its width iff it is a conv of the planner
  with a weight, is not a tile, and has no own shape without output channels;
* a conv that the planner could shard is accepted by the hints iff it has a shape of its own. -/
theorem shard_annotations_planned_iff {ops : List GraphOp} (hnd : (dispatchIds ops).Nodup)
    {layout : Option WeightLayout} (hrepacks : Repacks layout) (factor : ℕ) :
    (∀ shardOps out, applyShardHint ops shardOps = .ok out → ∀ entry ∈ shardOps, ∀ op ∈ out,
      op.dispatchId = some entry.1 → ∃ n : ℕ, op.shardFactor = some (n : ℤ) ∧ 1 < n ∧
        (Planned out layout factor entry.1 n ↔
          op.op ∈ ocSliceableConvOps ∧ convWeightOf op ≠ none ∧ "OC" ∈ op.shape.keys)) ∧
    (∀ schedule network out, applyScheduleShards ops schedule network = .ok out → ∀ op ∈ out,
      op.xpurtScheduleShardFactor = true → ∃ (did : ℤ) (n : ℕ), op.dispatchId = some did ∧
        op.shardFactor = some (n : ℤ) ∧ 1 < n ∧
        (Planned out layout factor did n ↔
          Shardable op ∧ (op.shape.items = [] ∨ "OC" ∈ op.shape.keys))) ∧
    ∀ op ∈ ops, ∀ (did : ℤ) (n : ℕ), op.dispatchId = some did → 1 < n → Shardable op →
      0 < convOutputChannels op → n ∣ convOutputChannels op →
        ((∃ out, applyShardHint ops [(did, (n : ℤ))] = .ok out) ↔ op.shape.items ≠ []) := by
  refine ⟨?_, ?_, ?_⟩
  · intro shardOps out hout entry hentry op hop hdid
    obtain ⟨hids, hspec⟩ := applyShardHint_spec hnd hout
    obtain ⟨n, hn, haccepts⟩ := hspec entry hentry op hop hdid
    obtain ⟨n, rfl⟩ := Int.eq_ofNat_of_zero_le (by have := haccepts.1; omega : 0 ≤ n)
    have hwide : 1 < n := by
      have := haccepts.1
      omega
    refine ⟨n, hn, hwide, ?_⟩
    rw [planned_iff (hids ▸ hnd) hrepacks factor hop hdid hn hwide]
    exact planned_of_accepts haccepts
  · intro schedule network out hout op hop hmarked
    obtain ⟨hids, hspec⟩ := applyScheduleShards_spec hout
    obtain ⟨did, n, hdid, hn, hwide, -, hpos, hdvd⟩ := hspec op hop hmarked
    refine ⟨did, n, hdid, hn, hwide, ?_⟩
    rw [planned_iff (hids ▸ hnd) hrepacks factor hop hdid hn hwide,
      convOutputChannels_iff hpos hdvd]
  · intro op hop did n hdid hwide hshardable hpos hdvd
    rw [applyShardHint_single_iff hnd hop hdid]
    constructor
    · rintro ⟨-, -, -, hoc, -⟩ hnil
      have hnone : ∀ key, op.shape.get? key = none := by
        intro key
        rw [get?_eq_none_iff, PyDict.keys, hnil]
        exact not_mem_nil
      simp [ocOf, hnone] at hoc
    · intro hitems
      have hsame : ocOf op = convOutputChannels op := by
        rw [convOutputChannels_of_shape hitems] at hpos ⊢
        cases hget : op.shape.get? "OC" with
        | none => simp [hget] at hpos
        | some oc => simp [ocOf, hget]
      have hkind : op.op ∈ shardableOps := by
        have hsub : ocSliceableConvOps ⊆ shardableOps := by decide
        exact hsub hshardable.1
      refine ⟨by omega, hkind, hshardable.2.2, ?_, ?_⟩
      · rwa [hsame]
      · rw [hsame]
        exact Int.natCast_dvd_natCast.mpr hdvd

/-- A conv of the planner with its output channels in its own shape. -/
private def plainConv : GraphOp :=
  { op := "conv2d_s8", dispatchId := some 0, weight := some "w",
    shape := PyDict.ofList [("OC", 8)] }

/-- A conv with a fused activation, which has a sharded emitter of its own. -/
private def siluConv : GraphOp := { plainConv with op := "conv2d_silu_s8" }

/-- A conv with a fused normalization, whose output channels are those of its constituent. -/
private def fusedConv : GraphOp :=
  { op := "conv2d_batchnorm2d_s8", dispatchId := some 0, subOps := [plainConv] }

/-- A hint for a plain conv is planned. -/
theorem plainConv_planned :
    Planned [{ plainConv with shardFactor := some 2 }] (some .hwio) 1 0 2 := by
  have hnd : (dispatchIds [plainConv]).Nodup := by decide
  have hrepacks : Repacks (some .hwio) := by decide
  obtain ⟨n, hn, -, hplanned⟩ := (shard_annotations_planned_iff hnd hrepacks 1).1 [(0, 2)] _ rfl
    (0, 2) (mem_singleton_self _) { plainConv with shardFactor := some 2 }
    (mem_singleton_self _) rfl
  obtain rfl : n = 2 := by
    have := Option.some.inj hn
    omega
  exact hplanned.mpr (by decide)

/-- The planner skips a conv that a hint has annotated, and would shard a conv that hints refuse. -/
theorem siluConv_skipped_and_fusedConv_refused :
    (∃ out, applyShardHint [siluConv] [(0, 2)] = .ok out ∧ ∃ op ∈ out,
      op.dispatchId = some 0 ∧ op.shardFactor = some 2 ∧ ¬Planned out (some .hwio) 1 0 2) ∧
    Planned [{ fusedConv with shardFactor := some 2 }] (some .hwio) 1 0 2 ∧
    ¬∃ out, applyShardHint [fusedConv] [(0, 2)] = .ok out := by
  refine ⟨⟨[{ siluConv with shardFactor := some 2 }], rfl, _, mem_singleton_self _, rfl, rfl,
    ?_⟩, ?_, ?_⟩
  · rintro ⟨spec, hspec, -⟩
    obtain ⟨-, op, hop, hshardable, -⟩ := (get?_shardConvWeights (by decide)).mp hspec
    rw [mem_singleton.mp hop] at hshardable
    revert hshardable
    decide
  · exact ⟨⟨"w", 4, 2⟩, by decide, rfl⟩
  · have hmem : fusedConv ∈ [fusedConv] := mem_singleton_self _
    rw [applyShardHint_single_iff (by decide) hmem rfl]
    unfold AcceptsShards
    decide

end ModelBlaster

/-! ## Schedules one after the other -/

namespace ModelBlaster

open List Fallible

variable (schedule : List ScheduleSlot) (network : String)

/-- The width that a schedule gives to an op: one, unless the op is a dispatch with packed
weights. -/
def scheduledWidth (op : GraphOp) : ℕ :=
  match op.dispatchId with
  | none => 1
  | some did =>
    if op.op ∈ packedWeightShardOps then (widthsOf schedule network did).headD 1 else 1

/-- Instances of one dispatch have different widths. -/
def Varying : Prop :=
  ∃ slot ∈ schedule, isInstance slot.jobName network ∧
    1 < (widthsOf schedule network slot.id).length

/-- The width is one, or it divides the output channels. -/
def WidthFits (op : GraphOp) : Prop :=
  scheduledWidth schedule network op ≤ 1 ∨
    outputChannels op ≠ 0 ∧ scheduledWidth schedule network op ∣ outputChannels op

/-- An explicit hint that the schedule agrees with. -/
def AgreedHint (op : GraphOp) : Prop :=
  1 < scheduledWidth schedule network op ∧
    op.shardFactor = some (scheduledWidth schedule network op : ℤ)

variable {schedule network}

/-! ### One op -/

variable {op' op op₁ : GraphOp} {ops r ops₁ : List GraphOp}

/-- How an op comes out: as it is if its width is one, and otherwise with the width. -/
theorem applyScheduleSlot_eq_ok_iff :
    applyScheduleSlot schedule network op = .ok op' ↔ WidthFits schedule network op ∧
      (1 < scheduledWidth schedule network op →
        op.shardFactor = none ∨
          op.shardFactor = some (scheduledWidth schedule network op : ℤ)) ∧
      op' = if scheduledWidth schedule network op ≤ 1 then op
        else { op with
          shardFactor := some (scheduledWidth schedule network op : ℤ)
          xpurtScheduleShardFactor := true } := by
  rw [applyScheduleSlot, WidthFits]
  cases hdid : op.dispatchId with
  | none =>
    have hone : scheduledWidth schedule network op = 1 := by rw [scheduledWidth, hdid]
    simp [hone, eq_comm]
  | some did =>
    dsimp only
    by_cases hkind : op.op ∈ packedWeightShardOps
    · have hwidth : scheduledWidth schedule network op =
          (widthsOf schedule network did).headD 1 := by
        rw [scheduledWidth, hdid]
        exact if_pos hkind
      rw [if_neg (not_not.mpr hkind), ← hwidth]
      set w := scheduledWidth schedule network op
      by_cases hw : w ≤ 1
      · simp [hw, eq_comm]
      · rw [if_neg hw, if_neg hw, ite_error_eq_ok_iff, not_or, not_not, ← Nat.dvd_iff_mod_eq_zero]
        have hlt : 1 < w := by omega
        cases hshard : op.shardFactor with
        | none => simp [hw, hlt, eq_comm]
        | some explicit =>
          rw [ite_error_eq_ok_iff]
          simp [hw, hlt, eq_comm]
    · have hone : scheduledWidth schedule network op = 1 := by
        rw [scheduledWidth, hdid]
        exact if_neg hkind
      rw [if_pos hkind]
      simp [hone, eq_comm]

/-- What refuses the second of two schedules whether or not the first one was applied: instances of
different widths, a width that does not divide the output channels, or an explicit hint that neither
schedule agrees with. -/
def RefusedAnyway (first second : List ScheduleSlot) (network : String) (ops : List GraphOp) :
    Prop :=
  Varying second network ∨ ∃ op ∈ ops, ¬WidthFits second network op ∨
    1 < scheduledWidth second network op ∧ ¬AgreedHint first network op ∧
      ∃ e, op.shardFactor = some e ∧ e ≠ scheduledWidth second network op

variable {first second : List ScheduleSlot}

theorem dropScheduleShards_of_unmarked (h : op.xpurtScheduleShardFactor = false) :
    dropScheduleShards op = op := by
  rw [dropScheduleShards, h]
  rfl

/-- What the second run sees of an op that the first one has annotated. -/
theorem dropScheduleShards_of_applied (hmark : op.xpurtScheduleShardFactor = false)
    (h : applyScheduleSlot first network op = .ok op₁) :
    dropScheduleShards op₁ = op ∧ ¬AgreedHint first network op ∨
      dropScheduleShards op₁ = { op with shardFactor := none } ∧ AgreedHint first network op := by
  obtain ⟨-, hhint, rfl⟩ := applyScheduleSlot_eq_ok_iff.mp h
  by_cases hw : scheduledWidth first network op ≤ 1
  · rw [if_pos hw]
    exact .inl ⟨dropScheduleShards_of_unmarked hmark, fun hagreed => absurd hagreed.1 (by omega)⟩
  · have hdrop : dropScheduleShards { op with
        shardFactor := some (scheduledWidth first network op : ℤ)
        xpurtScheduleShardFactor := true } = { op with shardFactor := none } := by
      rw [dropScheduleShards, if_pos rfl, ← hmark]
    rw [if_neg hw, hdrop]
    rcases hhint (by omega) with hnone | hsome
    · -- An op without a hint is what it was.
      have hsame : { op with shardFactor := none } = op := by
        cases op
        subst hnone
        rfl
      refine .inl ⟨hsame, fun hagreed => ?_⟩
      rw [hagreed.2] at hnone
      cases hnone
    · exact .inr ⟨rfl, by omega, hsome⟩

/-- Without its hint, an op comes out iff its width fits. -/
private theorem applyScheduleSlot_without_hint :
    applyScheduleSlot second network { op with shardFactor := none } = .ok op' ↔
      WidthFits second network op ∧
        op' = if scheduledWidth second network op ≤ 1 then { op with shardFactor := none }
          else { op with
            shardFactor := some (scheduledWidth second network op : ℤ)
            xpurtScheduleShardFactor := true } := by
  rw [applyScheduleSlot_eq_ok_iff]
  exact and_congr_right fun _ => and_iff_right_of_imp fun _ _ => .inl rfl

/-! ### Runs -/

/-- When a run succeeds. -/
theorem applyScheduleShards_eq_ok_iff :
    applyScheduleShards ops schedule network = .ok r ↔ ¬Varying schedule network ∧
      List.Forall₂ (fun op op' => applyScheduleSlot schedule network (dropScheduleShards op) =
        .ok op') ops r := by
  rw [applyScheduleShards]
  split
  · rename_i slot hfind
    have hslot := find?_some hfind
    refine iff_of_false (fun h => ?_) fun h => h.1 ?_
    · cases h
    · exact ⟨slot, mem_of_find?_eq_some hfind, by simpa using hslot⟩
  · rename_i hfind
    rw [mapM_eq_ok_iff]
    refine (and_iff_right ?_).symm
    rintro ⟨slot, hslot, hvarying⟩
    exact absurd (find?_eq_none.mp hfind slot hslot) (by simpa using hvarying)

/-- The first run changes nothing for the second one if that is refused anyway. -/
private theorem not_ok_of_refusedAnyway (hmark : ∀ op ∈ ops, op.xpurtScheduleShardFactor = false)
    (h : List.Forall₂ (fun op op₁ => applyScheduleSlot first network op = .ok op₁) ops ops₁)
    (href : RefusedAnyway first second network ops) (r : List GraphOp) :
    applyScheduleShards ops₁ second network ≠ .ok r ∧
      applyScheduleShards ops second network ≠ .ok r := by
  rw [Ne, Ne, applyScheduleShards_eq_ok_iff, applyScheduleShards_eq_ok_iff]
  rcases href with hvarying | ⟨op, hop, hbad⟩
  · exact ⟨fun h => h.1 hvarying, fun h => h.1 hvarying⟩
  · -- Neither run gets over the op.
    obtain ⟨i, hi, rfl⟩ := mem_iff_getElem.mp hop
    have hlen := h.length_eq
    have hstep : applyScheduleSlot first network ops[i] = .ok ops₁[i] := h.get hi (hlen ▸ hi)
    have hslot : ∀ op', applyScheduleSlot second network ops[i] ≠ .ok op' := by
      intro op' hok
      obtain ⟨hfits, hhint, -⟩ := applyScheduleSlot_eq_ok_iff.mp hok
      rcases hbad with hnot | ⟨hw, -, e, he, hne⟩
      · exact hnot hfits
      · rcases hhint hw with hnone | hsome
        · rw [he] at hnone
          cases hnone
        · rw [he] at hsome
          exact hne (Option.some.inj hsome)
    have hslot₁ : ∀ op', applyScheduleSlot second network (dropScheduleShards ops₁[i]) ≠
        .ok op' := by
      intro op' hok
      rcases dropScheduleShards_of_applied (hmark _ hop) hstep with ⟨hdrop, -⟩ | ⟨hdrop, hagreed⟩
      · rw [hdrop] at hok
        exact hslot op' hok
      · rw [hdrop, applyScheduleSlot_without_hint] at hok
        rcases hbad with hnot | ⟨-, hnot, -⟩
        · exact hnot hok.1
        · exact hnot hagreed
    refine ⟨fun hrun => ?_, fun hrun => ?_⟩
    · have hlen' := hrun.2.length_eq
      exact hslot₁ _ (hrun.2.get (hlen ▸ hi) (hlen' ▸ hlen ▸ hi))
    · have hlen' := hrun.2.length_eq
      have hok := hrun.2.get hi (hlen' ▸ hi)
      rw [get_eq_getElem, dropScheduleShards_of_unmarked (hmark _ hop)] at hok
      exact hslot _ hok

section
variable (hmark : op.xpurtScheduleShardFactor = false)
  (h : applyScheduleSlot first network op = .ok op₁)
include hmark h

/-- The first run makes no difference to an op whose hint it does not agree with, or to which the
second schedule gives the same width. -/
private theorem applyScheduleSlot_congr
    (hagree : AgreedHint first network op →
      scheduledWidth second network op = scheduledWidth first network op) :
    applyScheduleSlot second network (dropScheduleShards op₁) = .ok op' ↔
      applyScheduleSlot second network op = .ok op' := by
  rcases dropScheduleShards_of_applied hmark h with ⟨hdrop, -⟩ | ⟨hdrop, hagreed⟩
  · rw [hdrop]
  · obtain ⟨hw, hhint⟩ := hagreed
    rw [hdrop, applyScheduleSlot_without_hint, applyScheduleSlot_eq_ok_iff, hagree ⟨hw, hhint⟩,
      if_neg (by omega), if_neg (by omega)]
    exact and_congr_right fun _ => (and_iff_right fun _ => .inr hhint).symm

/-- The second run accepts an op that the first one has annotated, if nothing refuses it anyway. -/
private theorem exists_applyScheduleSlot (hfits : WidthFits second network op)
    (hhint : 1 < scheduledWidth second network op → ¬AgreedHint first network op →
      ∀ e, op.shardFactor = some e → e = scheduledWidth second network op) :
    ∃ op', applyScheduleSlot second network (dropScheduleShards op₁) = .ok op' := by
  rcases dropScheduleShards_of_applied hmark h with ⟨hdrop, hnot⟩ | ⟨hdrop, -⟩
  · rw [hdrop]
    refine ⟨_, applyScheduleSlot_eq_ok_iff.mpr ⟨hfits, fun hw => ?_, rfl⟩⟩
    cases hshard : op.shardFactor with
    | none => exact .inl rfl
    | some e => exact .inr (congrArg some (hhint hw hnot e hshard))
  · rw [hdrop]
    exact ⟨_, applyScheduleSlot_without_hint.mpr ⟨hfits, rfl⟩⟩

/-- A hint that the first schedule agrees with and the second does not is gone after both, or the
second schedule alone is refused. -/
private theorem not_same_of_changed (hagreed : AgreedHint first network op)
    (hne : scheduledWidth second network op ≠ scheduledWidth first network op)
    (h₁ : applyScheduleSlot second network (dropScheduleShards op₁) = .ok op')
    (h₂ : applyScheduleSlot second network op = .ok op') : False := by
  rcases dropScheduleShards_of_applied hmark h with ⟨-, hnot⟩ | ⟨hdrop, -⟩
  · exact hnot hagreed
  · rw [hdrop, applyScheduleSlot_without_hint] at h₁
    obtain ⟨-, hhint, h₂⟩ := applyScheduleSlot_eq_ok_iff.mp h₂
    rw [hagreed.2] at hhint
    by_cases hw : scheduledWidth second network op ≤ 1
    · rw [if_pos hw] at h₁ h₂
      have hnone := congrArg GraphOp.shardFactor (h₂.symm.trans h₁.2)
      rw [hagreed.2] at hnone
      cases hnone
    · rcases hhint (by omega) with hnone | hsome
      · cases hnone
      · exact hne (Int.ofNat_inj.mp (Option.some.inj hsome)).symm

end

section
variable (hmark : ∀ op ∈ ops, op.xpurtScheduleShardFactor = false)
include hmark

/-- The steps of a run over ops without annotations. -/
private theorem steps_of_applied (h : applyScheduleShards ops first network = .ok ops₁) :
    List.Forall₂ (fun op op₁ => applyScheduleSlot first network op = .ok op₁) ops ops₁ := by
  have hall := (applyScheduleShards_eq_ok_iff.mp h).2
  rw [forall₂_iff_get] at hall ⊢
  refine ⟨hall.1, fun i hi hi' => ?_⟩
  have hstep := hall.2 i hi hi'
  rwa [dropScheduleShards_of_unmarked (hmark _ (get_mem ..))] at hstep

/-- The first run makes no difference if it agrees with no hint that the second one does not agree
with. -/
private theorem applyScheduleShards_congr
    (hsteps : List.Forall₂ (fun op op₁ => applyScheduleSlot first network op = .ok op₁) ops ops₁)
    (hagree : ∀ op ∈ ops, AgreedHint first network op →
      scheduledWidth second network op = scheduledWidth first network op) :
    applyScheduleShards ops₁ second network = .ok r ↔
      applyScheduleShards ops second network = .ok r := by
  have hlen := hsteps.length_eq
  rw [applyScheduleShards_eq_ok_iff, applyScheduleShards_eq_ok_iff, forall₂_iff_get,
    forall₂_iff_get]
  refine and_congr_right fun _ => and_congr (by rw [hlen]) (forall_congr' fun i => ?_)
  constructor
  · intro hat hi hi'
    have hop : ops.get ⟨i, hi⟩ ∈ ops := get_mem ..
    rw [dropScheduleShards_of_unmarked (hmark _ hop)]
    exact (applyScheduleSlot_congr (hmark _ hop) (hsteps.get hi (hlen ▸ hi))
      (hagree _ hop)).mp (hat (hlen ▸ hi) hi')
  · intro hat hi hi'
    have hop : ops.get ⟨i, hlen ▸ hi⟩ ∈ ops := get_mem ..
    have h₂ := hat (hlen ▸ hi) hi'
    rw [dropScheduleShards_of_unmarked (hmark _ hop)] at h₂
    exact (applyScheduleSlot_congr (hmark _ hop) (hsteps.get (hlen ▸ hi) hi) (hagree _ hop)).mpr h₂

end

/-- The first of two schedules makes no difference to the second iff the second is refused anyway,
or gives the same width to every op with an explicit hint that the first agrees with. -/
theorem reingest_iff {ops ops₁ : List GraphOp} (first second : List ScheduleSlot) (network : String)
    (hmark : ∀ op ∈ ops, op.xpurtScheduleShardFactor = false)
    (h : applyScheduleShards ops first network = .ok ops₁) :
    (∀ r, applyScheduleShards ops₁ second network = .ok r ↔
      applyScheduleShards ops second network = .ok r) ↔
      RefusedAnyway first second network ops ∨
        ∀ op ∈ ops, AgreedHint first network op →
          scheduledWidth second network op = scheduledWidth first network op := by
  have hsteps := steps_of_applied hmark h
  have hlen := hsteps.length_eq
  constructor
  · intro hsame
    by_contra hcond
    rw [not_or] at hcond
    obtain ⟨hanyway, hchanged⟩ := hcond
    rw [RefusedAnyway, not_or] at hanyway
    obtain ⟨hnovary, hgood⟩ := hanyway
    -- The second run after the first one succeeds.
    obtain ⟨r, hr⟩ := exists_mapM_eq_ok (l := ops₁)
      (f := fun op => applyScheduleSlot second network (dropScheduleShards op)) fun op₁ hop₁ => by
        obtain ⟨i, hi, rfl⟩ := mem_iff_getElem.mp hop₁
        have hop : ops[i] ∈ ops := getElem_mem (hlen ▸ hi)
        refine exists_applyScheduleSlot (hmark _ hop) (hsteps.get (hlen ▸ hi) hi) ?_ ?_
        · by_contra hnot
          exact hgood ⟨_, hop, .inl hnot⟩
        · intro hw hnot e he
          by_contra hne
          exact hgood ⟨_, hop, .inr ⟨hw, hnot, e, he, hne⟩⟩
    have hrun₁ := applyScheduleShards_eq_ok_iff.mpr ⟨hnovary, mapM_eq_ok_iff.mp hr⟩
    have hrun := applyScheduleShards_eq_ok_iff.mp ((hsame r).mp hrun₁)
    -- So does the second run alone, but the op with the hint comes out differently.
    apply hchanged
    intro op hop hagreed
    by_contra hne
    obtain ⟨i, hi, rfl⟩ := mem_iff_getElem.mp hop
    have hlenr := hrun.2.length_eq
    have hat := hrun.2.get hi (hlenr ▸ hi)
    rw [get_eq_getElem, dropScheduleShards_of_unmarked (hmark _ hop)] at hat
    exact not_same_of_changed (hmark _ hop) (hsteps.get hi (hlen ▸ hi)) hagreed hne
      ((mapM_eq_ok_iff.mp hr).get (hlen ▸ hi) (hlenr ▸ hi)) hat
  · rintro (href | hagree) r
    · have hno := not_ok_of_refusedAnyway hmark hsteps href r
      exact iff_of_false hno.1 hno.2
    · exact applyScheduleShards_congr hmark hsteps hagree

/-- A conv that asks for nothing. -/
def unhintedConv : GraphOp where
  op := "conv2d_s8"
  dispatchId := some 0
  shape := PyDict.ofList [("OC", 8)]

/-- A conv that asks for two shards. -/
def hintedConv : GraphOp := { unhintedConv with shardFactor := some 2 }

/-- Annotated for two shards by a schedule, the conv that asks for nothing is as it was after a
schedule that places it on one core. -/
theorem reingest_unhintedConv :
    applyScheduleShards [{ hintedConv with xpurtScheduleShardFactor := true }]
      [⟨"net", 0, "CPU_P#0"⟩] "net" = .ok [unhintedConv] := by
  refine ((@reingest_iff [unhintedConv] _ [⟨"net", 0, "CPU_P#0+CPU_P#1"⟩] _ "net" ?_
    (by rfl)).mpr (.inr ?_) _).mpr (by rfl)
  · intro op hop
    rw [mem_singleton.mp hop]
    rfl
  · intro op hop hagreed
    rw [mem_singleton.mp hop] at hagreed
    cases hagreed.2

/-- A schedule that places the conv with a hint on two cores, and then one that places it on one: the hint is
gone. -/
theorem reingest_hintedConv :
    ∃ ops₁, applyScheduleShards [hintedConv] [⟨"net", 0, "CPU_P#0+CPU_P#1"⟩] "net" = .ok ops₁ ∧
      applyScheduleShards ops₁ [⟨"net", 0, "CPU_P#0"⟩] "net" =
        .ok [{ hintedConv with shardFactor := none }] ∧
      applyScheduleShards [hintedConv] [⟨"net", 0, "CPU_P#0"⟩] "net" = .ok [hintedConv] :=
  ⟨[{ hintedConv with xpurtScheduleShardFactor := true }], by rfl, by rfl, by rfl⟩

end ModelBlaster
