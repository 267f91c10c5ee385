import ModelBlaster.KernelFusion.Chain
import ModelBlaster.Rewrite.GraphEdit

/-!
# The cache of kernels

`kb_ingest` keeps the kernels that have won a measurement. An entry carries a guard, the shapes on
which it was verified. `cache_plan` decides which entries a graph uses: for a slot, for a part of
the instances of a slot, or for the stages of a fused slot. `verify_ir` runs the model and marks the
entries that were used.

## Main definitions

* `CudaCache.add`, `CudaCache.addReuse`, `CudaCache.lookup`: the cache;
* `slotPlan`: the decision for a slot;
* `applySplit`: the slots that a split makes;
* `cachePlan`: the plan;
* `verifyMarks`: the marks of a verification;
* `PlanEnv.Serves`: entries of a file that may serve a signature on a shape;
* `HintFits`: a split as a partition of the instances;
* `splitOp`: an op behind all hints;
* `SplitsFit`: hints that part the instances of their slots.

## Main results

* `PlanEnv.slotPlan_whole`, `PlanEnv.slotPlan_split`: the two kinds of decisions;
* `PlanEnv.hintFits_of_slotPlan`: the groups of a split;
* `foldl_applySplit`: the graph behind all hints;
* `calledSlot_splitOp`: the slot of an instance of a split slot;
* `splitsFit_of_slotPlans`: the hints of the decisions.
-/

namespace ModelBlaster.KernelCache

open KernelFusion PyList

/-! ### Entries -/

/-- An entry of the index, as far as plans look at it. -/
structure CacheEntry where
  op : String
  entry : String
  signatureSha : String
  dtype : String
  arch : String
  /-- The keys of the shapes on which it was verified. -/
  shapeGuard : List String
  slotUs : ℚ
  implId : String
  /-- The source, named by the hash of its text. -/
  file : String
  modelVerified : List String
  rejected : List String
  superseded : List String
  target : String
deriving DecidableEq

/-- A cache, for one target. -/
structure CudaCache where
  target : String
  entries : List CacheEntry

/-- What is added: a kernel that has won on some shapes. -/
structure Winner (σ : Type) where
  op : String
  entry : String
  signature : String
  arch : String
  shapes : List σ
  code : String
  slotUs : ℚ
  implId : String
  dtype : Option String

/-- The signature of a kind, with the C entry that it declares. -/
structure KernelSig where
  signature : String
  entry : String
deriving DecidableEq

/-- The keys and the hashes: `_shape_key`, `hashlib.sha1`, and `signature_sha` of the signature as
CUDA spells it. -/
structure Hashes (σ : Type) where
  shapeKey : σ → String
  sha1 : String → String
  signatureSha : String → String

variable {σ : Type} (H : Hashes σ)

/-- The name of a storage type. -/
def storageName : StorageDtype → String
  | .fp32 => "fp32"
  | .fp16 => "fp16"
  | .bf16 => "bf16"

/-- `sorted` of a set of strings. -/
def sortedKeys (l : List String) : List String := l.dedup.insertionSort (· ≤ ·)

/-- The name of a source. -/
def fileOf (target code : String) : String :=
  "src/" ++ H.sha1 code ++ if target = "cuda" then ".cu" else ".cpp"

/-- A new entry. -/
def newEntry (target dtype : String) (w : Winner σ) : CacheEntry where
  op := w.op
  entry := w.entry
  signatureSha := H.signatureSha w.signature
  dtype := dtype
  arch := w.arch
  shapeGuard := sortedKeys (w.shapes.map H.shapeKey)
  slotUs := w.slotUs
  implId := w.implId
  file := fileOf H target w.code
  modelVerified := []
  rejected := []
  superseded := []
  target := target

/-- The storage type of an entry that `add` makes. -/
def addedDtype (w : Winner σ) : String :=
  match w.dtype with
  | some d => if d ∈ ["fp32", "fp16", "bf16"] then d else storageName (opDtype w.op)
  | none => storageName (opDtype w.op)

/-- What became of a winner. -/
inductive AddStatus where
  | added
  | keptExisting
  | replaced
  | addedBesideRejected
deriving DecidableEq, Repr

/-- The entries that a winner competes with, with their positions. -/
def CudaCache.rivals (c : CudaCache) (new : CacheEntry) : List (ℕ × CacheEntry) :=
  (c.entries.zipIdx.map Prod.swap).filter fun ie =>
    ie.2.target = c.target ∧ ie.2.op = new.op ∧ ie.2.signatureSha = new.signatureSha ∧
      ie.2.dtype = new.dtype ∧ ie.2.arch = new.arch ∧ ie.2.shapeGuard = new.shapeGuard

/-- `CudaCache.add`; `beside` is the switch `MB_CACHE_BESIDE_REJECTED`. -/
def CudaCache.add (c : CudaCache) (beside : Bool) (w : Winner σ) :
    CudaCache × CacheEntry × AddStatus :=
  let new := newEntry H c.target (addedDtype w) w
  let same := c.rivals new
  let appended : CudaCache := { c with entries := c.entries ++ [new] }
  let live := same.filter fun ie => ie.2.rejected = []
  let pool := if live = [] then same else live
  let rival := if beside then firstBest (fun a b => a.2.slotUs < b.2.slotUs) pool else same.head?
  match rival with
  | none => (appended, new, .added)
  | some (i, e) =>
    match if beside then same.find? fun ie => ie.2.file = new.file else none with
    | some (_, old) => (c, old, .keptExisting)
    | none =>
      if w.slotUs < e.slotUs then ({ c with entries := c.entries.set i new }, new, .replaced)
      else if beside ∧ live = [] then (appended, new, .addedBesideRejected)
      else (c, e, .keptExisting)

/-- `CudaCache.add_reuse` -/
def CudaCache.addReuse (c : CudaCache) (w : Winner σ) : CudaCache :=
  let new := newEntry H c.target (w.dtype.getD (storageName (opDtype w.op))) w
  { c with entries := c.entries ++ [new] }

/-- Whether an entry may serve a signature in a model. -/
def CudaCache.usable (c : CudaCache) (sig : KernelSig) (arch : String) (irName : Option String)
    (e : CacheEntry) : Bool :=
  e.target = c.target ∧ e.entry = sig.entry ∧ e.signatureSha = H.signatureSha sig.signature ∧
    e.arch = arch ∧ e.dtype = storageName (opDtype sig.entry) ∧
    (∀ ir ∈ irName, ir ∉ e.rejected) ∧ ∀ ir ∈ irName, ir ∉ e.superseded

/-- The usable entries, with their positions. -/
def CudaCache.usableEntries (c : CudaCache) (sig : KernelSig) (arch : String)
    (irName : Option String) : List (ℕ × CacheEntry) :=
  (c.entries.zipIdx.map Prod.swap).filter fun ie => c.usable H sig arch irName ie.2

/-- Whether an entry is better than another: verified on the model, then faster. -/
def betterEntry (irName : Option String) (e best : CacheEntry) : Bool :=
  let verified (e : CacheEntry) : Bool := irName.any fun ir => ir ∈ e.modelVerified
  if verified e = verified best then e.slotUs < best.slotUs else verified e

/-- `CudaCache.lookup`, for the keys of the shapes. -/
def CudaCache.lookup (c : CudaCache) (sig : KernelSig) (arch : String) (need : List String)
    (irName : Option String) : Option (ℕ × CacheEntry) :=
  firstBest (fun a b => betterEntry irName a.2 b.2)
    ((c.usableEntries H sig arch irName).filter fun ie => need ⊆ ie.2.shapeGuard)

/-! ### Slots -/

/-- The fields of an op that plans look at. -/
structure PlanFields (σ : Type) where
  kind : String
  shape : σ
  /-- The kinds and the shapes of the stages. -/
  subOps : Option (List (String × σ))
deriving DecidableEq

/-- An op; what is volatile is its `slot_variant`. -/
abbrev PlanOp (σ : Type) : Type := GraphEdit.EditOp (PlanFields σ) String

/-- `KeyError`, `IndexError` -/
inductive CacheError where
  | keyError
  | indexError
deriving DecidableEq, Repr

/-- `_slot_id` -/
def slotName (name : List Char) : String :=
  String.ofList (name.map fun c => if c.isAlphanum ∨ c = '_' then c else '_')

/-- `base_slot_id` -/
def baseSlotId (sig : KernelSig) : String := slotName (removeKernelPrefix sig.entry.toList)

/-- `slot_id_of` -/
def slotIdOf (sig : KernelSig) (o : PlanOp σ) : String :=
  match o.volatile with
  | some variant => baseSlotId sig ++ "__" ++ variant
  | none => baseSlotId sig

/-- `ALIAS_OPS` -/
def aliasKinds : List String := ["view", "chunk2_c1"]

section
variable (specs : String → Option KernelSig)

/-- The slot of an op whose kind has a spec. -/
def slotOf (o : PlanOp σ) : Option String := (specs o.rest.kind).map fun sig => slotIdOf sig o

/-- The slot that an op calls. -/
def calledSlot (o : PlanOp σ) : Option String :=
  if o.rest.kind ∈ aliasKinds then none else slotOf specs o

/-- The instances of a slot. -/
def instancesOf (ops : List (PlanOp σ)) (sid : String) : List (PlanOp σ) :=
  ops.filter fun o => calledSlot specs o = some sid

/-! ### The decision for a slot -/

/-- A source that a slot is given: its file, its tag, and the entry that is recorded as used. -/
structure PlanSource where
  file : String
  tag : String
  used : ℕ
deriving DecidableEq, Repr

/-- A candidate to cover a part of the instances: a winner of the slot itself, or of the first
stage. -/
structure Cand where
  index : ℕ
  entry : CacheEntry
  own : Bool

/-- The instances that a candidate covers. -/
structure Part (σ : Type) where
  cand : Cand
  covered : List (PlanOp σ)

/-- The decision for a slot. -/
inductive SlotPlan (σ : Type) where
  | hand
  | whole (source : PlanSource)
  | split (parts : List (Part σ)) (left : List (PlanOp σ))

/-- A source of one entry. -/
def directSource (ie : ℕ × CacheEntry) : PlanSource :=
  ⟨ie.2.file, "cache:" ++ ie.2.implId, ie.1⟩

/-- The entries by their files. -/
def byCode (usable : List (ℕ × CacheEntry)) : List (List (ℕ × CacheEntry)) :=
  (orderedUnique (usable.map fun ie => ie.2.file)).map fun file =>
    usable.filter fun ie => ie.2.file = file

/-- The time of the fastest of some entries. -/
def fastest (cs : List (ℕ × CacheEntry)) : ℚ :=
  ((cs.map fun ie => ie.2.slotUs).min?).getD 0

/-- The files whose entries cover the instances together. -/
def wholeFiles (usable : List (ℕ × CacheEntry)) (need : List String) :
    List (List (ℕ × CacheEntry)) :=
  (byCode usable).filter fun cs => need ⊆ cs.flatMap fun ie => ie.2.shapeGuard

/-- A source of several entries, that cover the instances together. -/
def unionSource (usable : List (ℕ × CacheEntry)) (need : List String) : Option PlanSource :=
  match firstBest (fun a b => fastest a < fastest b) (wholeFiles usable need) with
  | some (first :: rest) => some ⟨first.2.file, "cache:" ++ "+".intercalate
      (sortedKeys ((first :: rest).map fun ie => ie.2.implId)), first.1⟩
  | _ => none

/-- The key of the shape of an instance. -/
def ownKey (o : PlanOp σ) : String := H.shapeKey o.rest.shape

/-- The key of the shape of a stage. -/
def stageKey (i : ℕ) (o : PlanOp σ) : Except CacheError String :=
  match o.rest.subOps with
  | none => .error .keyError
  | some stages =>
    match stages[i]? with
    | none => .error .indexError
    | some stage => .ok (H.shapeKey stage.2)

/-- Whether a candidate covers an instance. -/
def Cand.covers (cand : Cand) (o : PlanOp σ) : Bool :=
  if cand.own then ownKey H o ∈ cand.entry.shapeGuard
  else
    match stageKey H 0 o with
    | .ok key => key ∈ cand.entry.shapeGuard
    | .error _ => false

/-- Whether a candidate is better than another: by the instances that it covers, then the slot's own
before the stage's, then as entries are. -/
def betterCand (irName : String) (left : List (PlanOp σ)) (a best : Cand) : Bool :=
  let count (cand : Cand) : ℕ := left.countP (cand.covers H)
  if count a ≠ count best then count best < count a
  else if a.own ≠ best.own then a.own
  else betterEntry (some irName) a.entry best.entry

/-- The greedy cover, in as many rounds as there are instances. -/
def cover (irName : String) (cands : List Cand) :
    ℕ → List (PlanOp σ) → List (Part σ) × List (PlanOp σ)
  | 0, left => ([], left)
  | fuel + 1, left =>
    match firstBest (betterCand H irName left)
        (cands.filter fun cand => 0 < left.countP (cand.covers H)) with
    | none => ([], left)
    | some best =>
      let rest := cover irName cands fuel (left.filter fun o => !best.covers H o)
      (⟨best, left.filter (best.covers H)⟩ :: rest.1, rest.2)

/-- What is the same in all of a plan: the cache, the model, the device, and the specs. -/
structure PlanEnv (σ : Type) where
  hashes : Hashes σ
  cache : CudaCache
  specs : String → Option KernelSig
  irName : String
  arch : String
  split : Bool

variable (E : PlanEnv σ)

/-- The usable entries of a signature. -/
def PlanEnv.usable (sig : KernelSig) : List (ℕ × CacheEntry) :=
  E.cache.usableEntries E.hashes sig E.arch (some E.irName)

/-- `cache.lookup`, for a signature. -/
def PlanEnv.lookup (sig : KernelSig) (need : List String) : Option (ℕ × CacheEntry) :=
  E.cache.lookup E.hashes sig E.arch need (some E.irName)

/-- The winners of the slot itself. -/
def PlanEnv.ownCands (sig : KernelSig) : List Cand :=
  (E.usable sig).map fun ie => ⟨ie.1, ie.2, true⟩

/-- The winners of the first stage of a fused slot, if none covers all instances. -/
def PlanEnv.stageCands (first : PlanOp σ) (ops : List (PlanOp σ)) : Except CacheError (List Cand) :=
  match first.rest.subOps with
  | none => .ok []
  | some [] => .error .indexError
  | some ((kind, _) :: _) =>
    match E.specs kind with
    | none => .error .keyError
    | some sig => do
      let need ← ops.mapM (stageKey E.hashes 0)
      return if (E.lookup sig need).isSome then []
        else (E.usable sig).map fun ie => ⟨ie.1, ie.2, false⟩

/-- The split of a slot by a cover, unless it is one cover of all first stages. -/
def splitOf (parts : List (Part σ)) (left : List (PlanOp σ)) : SlotPlan σ :=
  match parts with
  | [] => .hand
  | [part] => if left = [] ∧ part.cand.own = false then .hand else .split parts left
  | _ :: _ :: _ => .split parts left

/-- The split of a slot. -/
def PlanEnv.splitPlan (sig : KernelSig) (first : PlanOp σ) (ops : List (PlanOp σ)) :
    Except CacheError (SlotPlan σ) := do
  let stage ← E.stageCands first ops
  let covering := cover E.hashes E.irName (E.ownCands sig ++ stage) ops.length ops
  return splitOf covering.1 covering.2

/-- The decision for a slot, with the signature and the first of its instances. -/
def PlanEnv.planOf (sig : KernelSig) (first : PlanOp σ) (ops : List (PlanOp σ)) :
    Except CacheError (SlotPlan σ) :=
  match E.lookup sig (ops.map (ownKey E.hashes)) with
  | some ie => .ok (.whole (directSource ie))
  | none =>
    match unionSource (E.usable sig) (ops.map (ownKey E.hashes)) with
    | some source => .ok (.whole source)
    | none =>
      if !E.split || ops.any (fun o => o.volatile.isSome) || ops.length < 2 then .ok .hand
      else E.splitPlan sig first ops

/-- The decision for a slot with the given instances. -/
def PlanEnv.slotPlan (ops : List (PlanOp σ)) : Except CacheError (SlotPlan σ) :=
  match ops with
  | [] => .ok .hand
  | first :: _ =>
    match E.specs first.rest.kind with
    | none => .error .keyError
    | some sig => E.planOf sig first ops

/-! ### Splits -/

/-- The slot of a group of a split. -/
def variantSlot (sid : String) (k : ℕ) : String := sid ++ "__" ++ ("v" ++ toString k)

/-- A group of a `split_slot` hint. -/
structure SplitGroup where
  ops : List String
  cache : Option String
  /-- Whether the group has a slot source, or is a cover of the first stages. -/
  asSlot : Bool
deriving DecidableEq, Repr

/-- A `split_slot` hint. -/
structure SplitHint where
  slot : String
  groups : List SplitGroup
deriving DecidableEq, Repr

/-- The groups of a split: one for each part, and one for what is left. -/
def splitGroups (parts : List (Part σ)) (left : List (PlanOp σ)) : List SplitGroup :=
  parts.map (fun part => ⟨part.covered.map fun o => o.name, some part.cand.entry.implId,
    part.cand.own⟩) ++
    if left = [] then [] else [⟨left.map fun o => o.name, none, false⟩]

/-- The hint of a decision. -/
def planHint (sid : String) : SlotPlan σ → Option SplitHint
  | .split parts left => some ⟨sid, splitGroups parts left⟩
  | _ => none

/-- The sources of the groups that have one. -/
def partSources (sid : String) (parts : List (Part σ)) : List (String × PlanSource) :=
  parts.zipIdx.filterMap fun pk =>
    if pk.1.cand.own then
      some (variantSlot sid pk.2, directSource (pk.1.cand.index, pk.1.cand.entry))
    else none

/-- The sources of a decision. -/
def planSources (sid : String) : SlotPlan σ → List (String × PlanSource)
  | .hand => []
  | .whole source => [(sid, source)]
  | .split parts _ => partSources sid parts

/-- Whether the entry of a kind names a slot. -/
def hasBaseSlot (o : PlanOp σ) (sid : String) : Bool :=
  (specs o.rest.kind).map baseSlotId = some sid

/-- The ops of a group are given their variant. -/
def markGroup (sid : String) (ops : List (PlanOp σ)) (group : List String × ℕ) : List (PlanOp σ) :=
  ops.map fun o =>
    if hasBaseSlot specs o sid ∧ o.name ∈ group.1 then
      { o with volatile := some ("v" ++ toString group.2) }
    else o

/-- `_apply_split_cuda` -/
def applySplit (ops : List (PlanOp σ)) (hint : SplitHint) : List (PlanOp σ) :=
  let names := (ops.filter fun o => hasBaseSlot specs o hint.slot).map fun o => o.name
  let live := (hint.groups.map fun group =>
    (orderedUnique group.ops).filter fun n => n ∈ names).filter fun group => group ≠ []
  if live.length < 2 then ops else live.zipIdx.foldl (markGroup specs hint.slot) ops

/-! ### The plan -/

/-- A source for the stages of a kind in a fused slot, with the entry that is recorded as used. -/
structure StageSeed where
  file : String
  used : ℕ
deriving DecidableEq, Repr

/-- What `cache_plan` returns. The entries that are used are those of the sources and the seeds. -/
structure CachePlan (σ : Type) where
  ops : List (PlanOp σ)
  sources : PyDict String PlanSource
  subSources : PyDict (Option String) (PyDict String StageSeed)
  hints : List SplitHint

/-- The entry for a stage of a fused slot, over the instances of the slot. -/
def PlanEnv.stageEntry (mine : List (PlanOp σ)) (kind : String) (i : ℕ) :
    Except CacheError (Option (ℕ × CacheEntry)) :=
  match E.specs kind with
  | none => .ok none
  | some sig => do
    let need ← mine.mapM (stageKey E.hashes i)
    return E.lookup sig need

/-- The seed of a stage. -/
def PlanEnv.addSeed (mine : List (PlanOp σ)) (seeds : PyDict String StageSeed)
    (stage : String × ℕ) : Except CacheError (PyDict String StageSeed) := do
  match ← E.stageEntry mine stage.1 stage.2 with
  | none => return seeds
  | some ie => return seeds.set stage.1 ⟨ie.2.file, ie.1⟩

/-- The seeds of the stages of the given kinds. -/
def PlanEnv.seedsOf (mine : List (PlanOp σ)) (kinds : List String) :
    Except CacheError (PyDict String StageSeed) :=
  kinds.zipIdx.foldlM (E.addSeed mine) PyDict.empty

/-- The ops whose kind has a spec and that have a slot. -/
def sharingSlot (ops : List (PlanOp σ)) (sid : Option String) : List (PlanOp σ) :=
  ops.filter fun x => (slotOf specs x).isSome ∧ slotOf specs x = sid

/-- The seeds of the slot of a fused op, unless it has a source or is done. -/
def PlanEnv.addSlotSeeds (sources : PyDict String PlanSource) (ops : List (PlanOp σ))
    (subs : PyDict (Option String) (PyDict String StageSeed)) (o : PlanOp σ) :
    Except CacheError (PyDict (Option String) (PyDict String StageSeed)) :=
  match o.rest.subOps with
  | none => .ok subs
  | some stages =>
    let sid := slotOf E.specs o
    if sid.any (fun s => s ∈ sources.keys) || (subs.get? sid).isSome then .ok subs
    else do
      let seeds ← E.seedsOf (sharingSlot E.specs ops sid) (stages.map Prod.fst)
      return subs.set sid seeds

/-- The ops with unique names. -/
def uniqueOps (ops : List (PlanOp σ)) : List (PlanOp σ) :=
  GraphEdit.renameFrom (fun _ => 0) (ops.map fun o => o.name) ops

/-- The decisions for the slots of a graph. -/
def PlanEnv.slotPlans (ops : List (PlanOp σ)) : Except CacheError (List (String × SlotPlan σ)) :=
  (orderedUnique (ops.filterMap (calledSlot E.specs))).mapM fun sid => do
    let plan ← E.slotPlan (instancesOf E.specs ops sid)
    return (sid, plan)

/-- The sources of the decisions. -/
def planDict (plans : List (String × SlotPlan σ)) : PyDict String PlanSource :=
  PyDict.ofList (plans.flatMap fun sp => planSources sp.1 sp.2)

/-- The hints of the decisions. -/
def planHints (plans : List (String × SlotPlan σ)) : List SplitHint :=
  plans.filterMap fun sp => planHint sp.1 sp.2

/-- `cache_plan` -/
def PlanEnv.cachePlan (graphOps : List (PlanOp σ)) : Except CacheError (CachePlan σ) := do
  let ops := uniqueOps graphOps
  let plans ← E.slotPlans ops
  let ops' := (planHints plans).foldl (applySplit E.specs) ops
  let subs ← ops'.foldlM (E.addSlotSeeds (planDict plans) ops') PyDict.empty
  return ⟨ops', planDict plans, subs, planHints plans⟩

end

/-! ### Verification -/

/-- The slot of a used entry, and the kind of its stages if it is a seed. -/
structure UsedKey where
  slot : String
  stage : Option String
deriving DecidableEq, Repr

/-- The entries that a plan uses. -/
def CachePlan.used (plan : CachePlan σ) : List (UsedKey × ℕ) :=
  plan.sources.items.map (fun item => (⟨item.1, none⟩, item.2.used)) ++
    plan.subSources.items.flatMap fun item => item.2.items.map fun seed =>
      (⟨item.1.getD "None", some seed.1⟩, seed.2.used)

/-- The mark of an entry that a model has used. -/
def markEntry (irName : String) (good : Bool) (e : CacheEntry) : CacheEntry :=
  if good then
    if irName ∈ e.modelVerified then e else { e with modelVerified := e.modelVerified ++ [irName] }
  else if irName ∈ e.rejected then e else { e with rejected := e.rejected ++ [irName] }

/-- What a run of the model gives: whether it passed, and which slots did. -/
structure Verdict where
  passed : Bool
  slotOk : String → Bool

/-- Whether a used entry is good. -/
def Verdict.good (v : Verdict) (key : UsedKey) : Bool := v.passed || v.slotOk key.slot

/-- The marks of `verify_ir`. -/
def CudaCache.verifyMarks (c : CudaCache) (irName : String) (v : Verdict)
    (used : List (UsedKey × ℕ)) : CudaCache :=
  used.foldl (fun c ke =>
    { c with entries := c.entries.modify ke.2 (markEntry irName (v.good ke.1)) }) c

end ModelBlaster.KernelCache

/-! ## The decisions for the slots -/

namespace ModelBlaster.KernelCache

open PyList List

variable {σ : Type} {E : PlanEnv σ}

/-! ### Entries -/

/-- An entry of the cache that may serve a signature. -/
def PlanEnv.MayServe (E : PlanEnv σ) (sig : KernelSig) (e : CacheEntry) : Prop :=
  e ∈ E.cache.entries ∧ E.cache.usable E.hashes sig E.arch (some E.irName) e = true

/-- A source may serve a signature on a shape. -/
def PlanEnv.Serves (E : PlanEnv σ) (sig : KernelSig) (file key : String) : Prop :=
  ∃ e, E.MayServe sig e ∧ e.file = file ∧ key ∈ e.shapeGuard

variable {ie : ℕ × CacheEntry} {need : List String} {source : PlanSource} {cand : Cand}

theorem PlanEnv.mem_usable {sig : KernelSig} :
    ie ∈ E.usable sig ↔ E.cache.entries[ie.1]? = some ie.2 ∧
      E.cache.usable E.hashes sig E.arch (some E.irName) ie.2 = true := by
  unfold PlanEnv.usable CudaCache.usableEntries
  rw [mem_filter, mem_map]
  apply and_congr_left'
  constructor
  · rintro ⟨⟨e, i⟩, hmem, rfl⟩
    simpa [mem_zipIdx_iff_getElem?] using hmem
  · intro hget
    refine ⟨(ie.2, ie.1), ?_, rfl⟩
    simpa [mem_zipIdx_iff_getElem?] using hget

theorem PlanEnv.mayServe_of_mem_usable {sig : KernelSig} (h : ie ∈ E.usable sig) :
    E.MayServe sig ie.2 := by
  rw [mem_usable] at h
  exact ⟨mem_of_getElem? h.1, h.2⟩

/-- An entry that is found may serve, and it covers all shapes. -/
theorem PlanEnv.lookup_spec {sig : KernelSig} (h : E.lookup sig need = some ie) :
    ie ∈ E.usable sig ∧ need ⊆ ie.2.shapeGuard := by
  have hmem := mem_of_firstBest h
  rw [mem_filter, decide_eq_true_eq] at hmem
  exact hmem

theorem PlanEnv.lookup_eq_none_iff {sig : KernelSig} :
    E.lookup sig need = none ↔ ∀ ie ∈ E.usable sig, ¬need ⊆ ie.2.shapeGuard := by
  unfold PlanEnv.lookup CudaCache.lookup
  rw [firstBest_eq_none_iff, filter_eq_nil_iff]
  simp only [decide_eq_true_eq]
  rfl

theorem PlanEnv.serves_of_lookup {sig : KernelSig} (h : E.lookup sig need = some ie) {key : String}
    (hkey : key ∈ need) :
    E.Serves sig ie.2.file key := by
  obtain ⟨hmem, hsub⟩ := lookup_spec h
  exact ⟨ie.2, mayServe_of_mem_usable hmem, rfl, hsub hkey⟩

/-- The entries of one file. -/
theorem mem_byCode {usable cs : List (ℕ × CacheEntry)} (h : cs ∈ byCode usable) :
    ∃ file, cs = usable.filter fun ie => ie.2.file = file := by
  obtain ⟨file, -, rfl⟩ := mem_map.mp h
  exact ⟨file, rfl⟩

/-- A source of several entries: one of them is recorded, and together they cover all shapes. -/
theorem unionSource_spec {sig : KernelSig} (h : unionSource (E.usable sig) need = some source) :
    (∃ ie ∈ E.usable sig, ie.1 = source.used ∧ ie.2.file = source.file) ∧
      ∀ key ∈ need, E.Serves sig source.file key := by
  unfold unionSource at h
  split at h
  case h_2 => cases h
  case h_1 first rest hbest =>
    obtain ⟨hcode, hsub⟩ := mem_filter.mp (mem_of_firstBest hbest)
    rw [decide_eq_true_eq] at hsub
    obtain ⟨file, hfile⟩ := mem_byCode hcode
    have hall : ∀ ie ∈ first :: rest, ie ∈ E.usable sig ∧ ie.2.file = file := by
      intro ie hie
      rw [hfile, mem_filter, decide_eq_true_eq] at hie
      exact hie
    obtain ⟨hfirst, hfirstFile⟩ := hall first mem_cons_self
    rw [← Option.some.inj h]
    refine ⟨⟨first, hfirst, rfl, rfl⟩, ?_⟩
    intro key hkey
    obtain ⟨ie, hie, hguard⟩ := mem_flatMap.mp (hsub hkey)
    obtain ⟨husable, hieFile⟩ := hall ie hie
    exact ⟨ie.2, PlanEnv.mayServe_of_mem_usable husable, hieFile.trans hfirstFile.symm, hguard⟩

/-! ### The greedy cover -/

variable {H : Hashes σ} {irName : String} {cands : List Cand}

/-- The parts of a cover, and what is left, are a partition. -/
theorem cover_perm (fuel : ℕ) (left : List (PlanOp σ)) :
    ((cover H irName cands fuel left).1.flatMap Part.covered ++
      (cover H irName cands fuel left).2).Perm left := by
  induction fuel generalizing left with
  | zero => exact List.Perm.refl _
  | succ fuel ih =>
    rw [cover]
    split
    case h_1 => exact List.Perm.refl _
    case h_2 best _ =>
      rw [flatMap_cons, append_assoc]
      exact ((ih _).append_left _).trans (filter_append_perm (best.covers H) left)

/-- A part is covered by its candidate, and it is not empty. -/
theorem mem_cover {fuel : ℕ} {left : List (PlanOp σ)} {part : Part σ}
    (h : part ∈ (cover H irName cands fuel left).1) :
    part.cand ∈ cands ∧ part.covered ≠ [] ∧ ∀ o ∈ part.covered, part.cand.covers H o = true := by
  induction fuel generalizing left with
  | zero => cases h
  | succ fuel ih =>
    rw [cover] at h
    split at h
    case h_1 => cases h
    case h_2 best hbest =>
      rcases mem_cons.mp h with rfl | hrest
      · obtain ⟨hcand, hcount⟩ := mem_filter.mp (mem_of_firstBest hbest)
        refine ⟨hcand, ?_, fun o ho => (mem_filter.mp ho).2⟩
        rw [decide_eq_true_eq, countP_eq_length_filter] at hcount
        exact ne_nil_of_length_pos hcount
      · exact ih hrest

/-! ### Decisions -/

variable {sig : KernelSig} {first : PlanOp σ} {ops left : List (PlanOp σ)} {parts : List (Part σ)}

/-- A split has the parts of the cover, and two groups or one with a source. -/
theorem splitOf_eq_split {parts' : List (Part σ)} {left' : List (PlanOp σ)}
    (h : splitOf parts left = .split parts' left') : parts' = parts ∧ left' = left ∧
      (2 ≤ (splitGroups parts left).length ∨ left = [] ∧ ∃ part, parts = [part] ∧
        part.cand.own = true) := by
  unfold splitOf at h
  split at h
  case h_1 => cases h
  case h_2 part =>
    split at h
    case isTrue => cases h
    case isFalse hcond =>
      injection h with hparts hleft
      refine ⟨hparts.symm, hleft.symm, ?_⟩
      by_cases hnil : left = []
      · exact .inr ⟨hnil, part, rfl, by simpa [hnil] using hcond⟩
      · exact .inl (by simp [splitGroups, hnil])
  case h_3 =>
    injection h with hparts hleft
    refine ⟨hparts.symm, hleft.symm, .inl ?_⟩
    simp only [splitGroups, length_append, length_map, length_cons]
    omega

/-- A source for a whole slot is that of entries that cover all instances. -/
theorem PlanEnv.planOf_whole (h : E.planOf sig first ops = .ok (.whole source)) :
    (∃ ie ∈ E.usable sig, ie.1 = source.used ∧ ie.2.file = source.file) ∧
      ∀ o ∈ ops, E.Serves sig source.file (ownKey E.hashes o) := by
  unfold PlanEnv.planOf at h
  split at h
  case h_1 ie hlookup =>
    injection Except.ok.inj h with hsource
    subst hsource
    refine ⟨⟨ie, (lookup_spec hlookup).1, rfl, rfl⟩, fun o ho => ?_⟩
    exact serves_of_lookup hlookup (mem_map_of_mem ho)
  case h_2 =>
    split at h
    case h_1 source' hunion =>
      injection Except.ok.inj h with hsource
      subst hsource
      obtain ⟨hused, hcovers⟩ := unionSource_spec hunion
      exact ⟨hused, fun o ho => hcovers _ (mem_map_of_mem ho)⟩
    case h_2 =>
      split at h
      case isTrue => cases h
      case isFalse =>
        obtain ⟨stage, -, h⟩ := Fallible.bind_eq_ok_iff.mp h
        have hplan := Except.ok.inj h
        unfold splitOf at hplan
        split at hplan
        case h_1 => cases hplan
        case h_2 => split at hplan <;> cases hplan
        case h_3 => cases hplan

/-- What a split is made of. -/
structure SplitSpec (E : PlanEnv σ) (sig : KernelSig) (ops : List (PlanOp σ))
    (parts : List (Part σ)) (left : List (PlanOp σ)) : Prop where
  noVariant : ∀ o ∈ ops, o.volatile = none
  partition : (parts.flatMap Part.covered ++ left).Perm ops
  nonempty : ∀ part ∈ parts, part.covered ≠ []
  covered : ∀ part ∈ parts, ∀ o ∈ part.covered, part.cand.covers E.hashes o = true
  own : ∀ part ∈ parts, part.cand.own = true → (part.cand.index, part.cand.entry) ∈ E.usable sig
  several : 2 ≤ (splitGroups parts left).length

theorem PlanEnv.own_eq_false_of_mem_stageCands {stage : List Cand}
    (h : E.stageCands first ops = .ok stage) (hcand : cand ∈ stage) :
    cand.own = false := by
  unfold PlanEnv.stageCands at h
  split at h
  case h_1 =>
    rw [← Except.ok.inj h] at hcand
    cases hcand
  case h_2 => cases h
  case h_3 =>
    split at h
    case h_1 => cases h
    case h_2 =>
      obtain ⟨need, -, h⟩ := Fallible.bind_eq_ok_iff.mp h
      rw [← Except.ok.inj h] at hcand
      split at hcand
      case isTrue => cases hcand
      case isFalse =>
        obtain ⟨ie, -, rfl⟩ := mem_map.mp hcand
        rfl

/-- A winner that covers an instance has its shape. -/
theorem ownKey_mem_of_covers {H : Hashes σ} {o : PlanOp σ} (hown : cand.own = true)
    (h : cand.covers H o = true) : ownKey H o ∈ cand.entry.shapeGuard := by
  rw [Cand.covers, if_pos hown] at h
  exact of_decide_eq_true h

/-- A split parts the instances, and its parts are covered. -/
theorem PlanEnv.planOf_split (h : E.planOf sig first ops = .ok (.split parts left)) :
    SplitSpec E sig ops parts left := by
  unfold PlanEnv.planOf at h
  split at h
  case h_1 => cases h
  case h_2 hlookup =>
    split at h
    case h_1 => cases h
    case h_2 =>
      split at h
      case isTrue => cases h
      case isFalse hvariant =>
        obtain ⟨stage, hstage, h⟩ := Fallible.bind_eq_ok_iff.mp h
        obtain ⟨rfl, rfl, hseveral⟩ := splitOf_eq_split (Except.ok.inj h)
        simp only [Bool.or_eq_true, not_or, Bool.not_eq_true] at hvariant
        set covering := cover E.hashes E.irName (E.ownCands sig ++ stage) ops.length ops
        have hpartition : (covering.1.flatMap Part.covered ++ covering.2).Perm ops := cover_perm _ _
        have hown : ∀ part ∈ covering.1, part.cand.own = true →
            (part.cand.index, part.cand.entry) ∈ E.usable sig := by
          intro part hpart htrue
          rcases mem_append.mp (mem_cover hpart).1 with hmem | hmem
          · obtain ⟨ie, hie, heq⟩ := mem_map.mp hmem
            rw [← heq]
            exact hie
          · rw [own_eq_false_of_mem_stageCands hstage hmem] at htrue
            cases htrue
        have hcovered : ∀ part ∈ covering.1, ∀ o ∈ part.covered,
            part.cand.covers E.hashes o = true := fun part hpart => (mem_cover hpart).2.2
        refine ⟨?_, hpartition, fun part hpart => (mem_cover hpart).2.1, hcovered, hown, ?_⟩
        · intro o ho
          have hnone := any_eq_false.mp hvariant.1.2 o ho
          simpa using hnone
        · -- one winner for all instances would have been found
          refine hseveral.resolve_right ?_
          rintro ⟨hleft, part, hparts, htrue⟩
          have hpart : part ∈ covering.1 := by
            rw [hparts]
            exact mem_singleton_self part
          refine lookup_eq_none_iff.mp hlookup _ (hown part hpart htrue) ?_
          intro key hkey
          obtain ⟨o, ho, rfl⟩ := mem_map.mp hkey
          have hmem := hpartition.mem_iff.mpr ho
          rw [hleft, append_nil, hparts, flatMap_cons, flatMap_nil, append_nil] at hmem
          exact ownKey_mem_of_covers htrue (hcovered part hpart o hmem)

end ModelBlaster.KernelCache

/-! ## The slots that splits make -/

namespace ModelBlaster.KernelCache

open PyList List

variable {σ : Type} {specs : String → Option KernelSig}

/-! ### Variants -/

theorem v_notMem_toString (k : ℕ) : 'v' ∉ (toString k).toList := by
  intro h
  rw [show toString k = Nat.repr k from rfl, Nat.repr, String.toList_ofList] at h
  have hdigit := Nat.isDigit_of_mem_toDigits (by decide) (by decide) h
  exact absurd hdigit (by decide)

variable {k : ℕ}

/-- The slot of a group belongs to one slot and one group. -/
theorem variantSlot_inj {sid sid' : String} {k' : ℕ} (h : variantSlot sid k = variantSlot sid' k') :
    sid = sid' ∧ k = k' := by
  have hlist := congrArg String.toList h
  simp only [variantSlot, String.toList_append] at hlist
  have hsplit : (sid.toList ++ "__".toList) ++ 'v' :: (toString k).toList =
      (sid'.toList ++ "__".toList) ++ 'v' :: (toString k').toList := by
    simpa using hlist
  obtain ⟨hstem, hnum⟩ :=
    Decimal.append_cons_inj (v_notMem_toString k) (v_notMem_toString k') hsplit
  exact ⟨String.toList_inj.mp (append_cancel_right hstem),
    Nat.repr_inj.mp (String.toList_inj.mp hnum)⟩

theorem variantSlot_ne (sid : String) (k : ℕ) : variantSlot sid k ≠ sid := by
  intro h
  have hlength := congrArg (fun s => s.toList.length) h
  simp [variantSlot] at hlength

/-! ### One op -/

/-- An op behind a group of a hint. -/
def markOp (specs : String → Option KernelSig) (sid : String) (o : PlanOp σ)
    (group : List String × ℕ) : PlanOp σ :=
  if hasBaseSlot specs o sid ∧ o.name ∈ group.1 then
    { o with volatile := some ("v" ++ toString group.2) }
  else o

/-- The groups of a hint, as they are numbered. -/
def numberedGroups (hint : SplitHint) : List (List String × ℕ) :=
  (hint.groups.map SplitGroup.ops).zipIdx

/-- An op behind a hint. -/
def hintOp (specs : String → Option KernelSig) (o : PlanOp σ) (hint : SplitHint) : PlanOp σ :=
  (numberedGroups hint).foldl (markOp specs hint.slot) o

/-- An op behind all hints. -/
def splitOp (specs : String → Option KernelSig) (hints : List SplitHint) (o : PlanOp σ) :
    PlanOp σ := hints.foldl (hintOp specs) o

variable {hint : SplitHint}

theorem mem_numberedGroups {names : List String} :
    (names, k) ∈ numberedGroups hint ↔ ∃ group, hint.groups[k]? = some group ∧
      group.ops = names := by
  simp [numberedGroups, mem_zipIdx_iff_getElem?]

/-- Marks change the variant only. -/
structure SameOp (o o' : PlanOp σ) : Prop where
  content : o'.toOpContent = o.toOpContent

variable {o o' : PlanOp σ}

theorem SameOp.name (h : SameOp o o') : o'.name = o.name :=
  congrArg (fun c => c.name) h.content

theorem SameOp.rest (h : SameOp o o') : o'.rest = o.rest :=
  congrArg (fun c => c.rest) h.content

theorem SameOp.hasBaseSlot (h : SameOp o o') (sid : String) :
    KernelCache.hasBaseSlot specs o' sid = KernelCache.hasBaseSlot specs o sid := by
  unfold KernelCache.hasBaseSlot
  rw [h.rest]

theorem sameOp_foldl {β : Type} {f : PlanOp σ → β → PlanOp σ} (hf : ∀ o b, SameOp o (f o b))
    (l : List β) (o : PlanOp σ) : SameOp o (l.foldl f o) := by
  induction l generalizing o with
  | nil => exact ⟨rfl⟩
  | cons b rest ih => exact ⟨(ih (f o b)).content.trans (hf o b).content⟩

theorem sameOp_markOp (sid : String) (o : PlanOp σ) (group : List String × ℕ) :
    SameOp o (markOp specs sid o group) := by
  unfold markOp
  split <;> exact ⟨rfl⟩

theorem sameOp_hintOp (o : PlanOp σ) (hint : SplitHint) : SameOp o (hintOp specs o hint) :=
  sameOp_foldl (fun o => sameOp_markOp hint.slot o) _ o

theorem sameOp_splitOp (hints : List SplitHint) (o : PlanOp σ) :
    SameOp o (splitOp specs hints o) := sameOp_foldl sameOp_hintOp _ o

/-- A hint leaves an op that is in none of its groups. -/
theorem hintOp_of_notMem (h : ∀ group ∈ hint.groups, o.name ∉ group.ops) :
    hintOp specs o hint = o := by
  have hnot : ∀ group ∈ numberedGroups hint, o.name ∉ group.1 := by
    rintro ⟨names, k⟩ hmem
    obtain ⟨group, hgroup, rfl⟩ := mem_numberedGroups.mp hmem
    exact h group (mem_of_getElem? hgroup)
  unfold hintOp
  generalize numberedGroups hint = groups at hnot
  induction groups with
  | nil => rfl
  | cons group rest ih =>
    have hhead : markOp specs hint.slot o group = o :=
      if_neg fun hmark => hnot group mem_cons_self hmark.2
    rw [foldl_cons, hhead]
    exact ih fun g hg => hnot g (mem_cons_of_mem group hg)

/-- A hint gives an op the variant of its group. -/
theorem hintOp_of_mem {group : SplitGroup} (hbase : hasBaseSlot specs o hint.slot = true)
    (hgroup : hint.groups[k]? = some group) (hmem : o.name ∈ group.ops)
    (hunique : ∀ k' group', hint.groups[k']? = some group' → o.name ∈ group'.ops → k' = k) :
    hintOp specs o hint = { o with volatile := some ("v" ++ toString k) } := by
  obtain ⟨pre, post, hsplit⟩ :=
    append_of_mem (mem_numberedGroups.mpr ⟨group, hgroup, rfl⟩)
  have hlater : ∀ g ∈ post, o.name ∈ g.1 → g.2 = k := by
    rintro ⟨names, k'⟩ hg hname
    have hin : (names, k') ∈ numberedGroups hint := by
      rw [hsplit]
      exact mem_append_right _ (mem_cons_of_mem _ hg)
    obtain ⟨group', hgroup', rfl⟩ := mem_numberedGroups.mp hin
    exact hunique k' group' hgroup' hname
  unfold hintOp
  rw [hsplit, foldl_append, foldl_cons]
  set before := pre.foldl (markOp specs hint.slot) o
  have hsame : SameOp o before := sameOp_foldl (sameOp_markOp hint.slot) pre o
  have hmark : markOp specs hint.slot before (group.ops, k) =
      { o with volatile := some ("v" ++ toString k) } := by
    unfold markOp
    rw [if_pos ⟨(hsame.hasBaseSlot hint.slot).trans hbase, hsame.name ▸ hmem⟩]
    show GraphEdit.EditOp.mk before.toOpContent _ = _
    rw [hsame.content]
  rw [hmark]
  clear hsplit hmark
  -- a later group with the op has the same number
  induction post with
  | nil => rfl
  | cons g rest ih =>
    have hhead : markOp specs hint.slot { o with volatile := some ("v" ++ toString k) } g =
        { o with volatile := some ("v" ++ toString k) } := by
      unfold markOp
      split
      case isTrue hcond => rw [hlater g mem_cons_self hcond.2]
      case isFalse => rfl
    rw [foldl_cons, hhead]
    exact ih fun g' hg' => hlater g' (mem_cons_of_mem g hg')

/-! ### All ops -/

/-- Hints that part the instances of their slots. -/
structure SplitsFit (specs : String → Option KernelSig) (ops : List (PlanOp σ))
    (hints : List SplitHint) : Prop where
  names : (ops.map fun o => o.name).Nodup
  slots : (hints.map SplitHint.slot).Nodup
  /-- The groups have instances of the slot. -/
  called : ∀ hint ∈ hints, ∀ group ∈ hint.groups, ∀ n ∈ group.ops,
    ∃ o ∈ ops, o.name = n ∧ o.volatile = none ∧ calledSlot specs o = some hint.slot
  /-- They have all of them, each of them once. -/
  complete : ∀ hint ∈ hints, ∀ o ∈ ops, calledSlot specs o = some hint.slot →
    ∃ (k : ℕ) (group : SplitGroup), hint.groups[k]? = some group ∧ o.name ∈ group.ops
  nodup : ∀ hint ∈ hints, (hint.groups.flatMap SplitGroup.ops).Nodup
  nonempty : ∀ hint ∈ hints, ∀ group ∈ hint.groups, group.ops ≠ []
  several : ∀ hint ∈ hints, 2 ≤ hint.groups.length

/-- An instance without a variant calls the slot of its entry. -/
theorem hasBaseSlot_of_called {sid : String} (hcalled : calledSlot specs o = some sid)
    (hnone : o.volatile = none) :
    hasBaseSlot specs o sid = true := by
  unfold calledSlot slotOf slotIdOf at hcalled
  rw [hnone] at hcalled
  split at hcalled
  case isTrue => cases hcalled
  case isFalse => exact decide_eq_true hcalled

section
variable {ops : List (PlanOp σ)} {hints : List SplitHint}

variable {hint : SplitHint} {group : SplitGroup} {o : PlanOp σ}

/-- The instance that a group names. -/
theorem SplitsFit.instance_of_mem (h : SplitsFit specs ops hints) (hhint : hint ∈ hints)
    (hgroup : group ∈ hint.groups) (ho : o ∈ ops) (hmem : o.name ∈ group.ops) :
    o.volatile = none ∧ calledSlot specs o = some hint.slot := by
  obtain ⟨o', ho', hname, hrest⟩ := h.called hint hhint group hgroup o.name hmem
  rwa [inj_on_of_nodup_map h.names ho' ho hname] at hrest

variable {k : ℕ}

section
variable (h : SplitsFit specs ops hints)
include h

/-- An instance is in one group. -/
theorem SplitsFit.group_unique (hhint : hint ∈ hints) {n : String} {k' : ℕ} {group' : SplitGroup}
    (hgroup : hint.groups[k]? = some group) (hgroup' : hint.groups[k']? = some group')
    (hmem : n ∈ group.ops) (hmem' : n ∈ group'.ops) :
    k = k' := by
  have hnodup := h.nodup hint hhint
  rw [nodup_flatMap] at hnodup
  by_contra hne
  obtain ⟨hk, rfl⟩ := List.getElem?_eq_some_iff.mp hgroup
  obtain ⟨hk', rfl⟩ := List.getElem?_eq_some_iff.mp hgroup'
  have hpair := pairwise_iff_getElem.mp hnodup.2
  rcases Nat.lt_or_gt_of_ne hne with hlt | hgt
  · exact hpair k k' hk hk' hlt hmem hmem'
  · exact hpair k' k hk' hk hgt hmem' hmem

/-- The groups of a hint are applied as they are. -/
theorem SplitsFit.applySplit_eq (hhint : hint ∈ hints) {f : PlanOp σ → PlanOp σ}
    (hf : ∀ o, SameOp o (f o)) :
    applySplit specs (ops.map f) hint = ops.map fun o => hintOp specs (f o) hint := by
  have hnames : ∀ group ∈ hint.groups, ∀ n ∈ group.ops,
      n ∈ ((ops.map f).filter fun o => hasBaseSlot specs o hint.slot).map fun o => o.name := by
    intro group hgroup n hn
    obtain ⟨o, ho, rfl, hnone, hcalled⟩ := h.called hint hhint group hgroup n hn
    rw [← (hf o).name]
    refine mem_map_of_mem (mem_filter.mpr ⟨mem_map_of_mem ho, ?_⟩)
    rw [(hf o).hasBaseSlot]
    exact hasBaseSlot_of_called hcalled hnone
  have hlive : ((hint.groups.map fun group => (orderedUnique group.ops).filter fun n =>
      n ∈ ((ops.map f).filter fun o => hasBaseSlot specs o hint.slot).map fun o =>
        o.name).filter fun group => group ≠ []) = hint.groups.map SplitGroup.ops := by
    have hkept : (hint.groups.map fun group => (orderedUnique group.ops).filter fun n =>
        n ∈ ((ops.map f).filter fun o => hasBaseSlot specs o hint.slot).map fun o => o.name) =
          hint.groups.map SplitGroup.ops := by
      apply map_congr_left
      intro group hgroup
      have hnodup := (nodup_flatMap.mp (h.nodup hint hhint)).1 group hgroup
      rw [orderedUnique_of_nodup hnodup, filter_eq_self]
      intro n hn
      exact decide_eq_true (hnames group hgroup n hn)
    rw [hkept, filter_eq_self]
    intro names hmem
    obtain ⟨group, hgroup, rfl⟩ := mem_map.mp hmem
    exact decide_eq_true (h.nonempty hint hhint group hgroup)
  unfold applySplit
  simp only [hlive]
  rw [if_neg (by rw [length_map]; exact (h.several hint hhint).not_gt)]
  show (numberedGroups hint).foldl (markGroup specs hint.slot) (ops.map f) = _
  unfold hintOp
  generalize numberedGroups hint = groups
  clear hlive hnames hf
  induction groups generalizing f with
  | nil => rfl
  | cons g rest ih =>
    rw [foldl_cons, show markGroup specs hint.slot (ops.map f) g =
      ops.map fun o => markOp specs hint.slot (f o) g from map_map]
    exact ih

/-- The graph behind all hints. -/
theorem SplitsFit.foldl_applySplit :
    hints.foldl (applySplit specs) ops = ops.map (splitOp specs hints) := by
  have hrun : ∀ done rest : List SplitHint, done ++ rest = hints →
      rest.foldl (applySplit specs) (ops.map (splitOp specs done)) =
        ops.map (splitOp specs hints) := by
    intro done rest
    induction rest generalizing done with
    | nil =>
      intro hsplit
      rw [append_nil] at hsplit
      rw [hsplit]
      rfl
    | cons hint rest ih =>
      intro hsplit
      have hhint : hint ∈ hints := by rw [← hsplit]; simp
      rw [foldl_cons, h.applySplit_eq hhint (sameOp_splitOp done)]
      have hnext : (ops.map fun o => hintOp specs (splitOp specs done o) hint) =
          ops.map (splitOp specs (done ++ [hint])) := by
        simp [splitOp, foldl_append]
      rw [hnext]
      exact ih (done ++ [hint]) (by simp [hsplit])
  have hstart := hrun [] hints rfl
  rwa [show ops.map (splitOp specs []) = ops from map_id ops] at hstart

end

/-- An op that is in no group stays as it is. -/
theorem splitOp_of_notMem (h : ∀ hint ∈ hints, ∀ group ∈ hint.groups, o.name ∉ group.ops) :
    splitOp specs hints o = o := by
  unfold splitOp
  induction hints with
  | nil => rfl
  | cons hint rest ih =>
    rw [foldl_cons, hintOp_of_notMem (h hint mem_cons_self)]
    exact ih fun hint' hhint' => h hint' (mem_cons_of_mem hint hhint')

section
variable (h : SplitsFit specs ops hints) (hhint : hint ∈ hints)
  (hgroup : hint.groups[k]? = some group) (ho : o ∈ ops) (hmem : o.name ∈ group.ops)
include h hhint hgroup ho hmem

/-- An instance of a split slot has the variant of its group. -/
theorem SplitsFit.splitOp_of_mem :
    splitOp specs hints o = { o with volatile := some ("v" ++ toString k) } := by
  obtain ⟨hnone, hcalled⟩ :=
    h.instance_of_mem hhint (mem_of_getElem? hgroup) ho hmem
  -- the groups of other hints do not have the op
  have hother : ∀ hint' ∈ hints, hint' ≠ hint → ∀ group' ∈ hint'.groups, o.name ∉ group'.ops := by
    intro hint' hhint' hne group' hgroup' hmem'
    have hcalled' := (h.instance_of_mem hhint' hgroup' ho hmem').2
    rw [hcalled] at hcalled'
    exact hne (inj_on_of_nodup_map h.slots hhint' hhint (Option.some.inj hcalled').symm)
  have hhints : hints.Nodup := List.Nodup.of_map _ h.slots
  obtain ⟨pre, post, hsplit⟩ := append_of_mem hhint
  rw [hsplit, nodup_append] at hhints
  have hpre : splitOp specs pre o = o := by
    apply splitOp_of_notMem
    intro hint' hin
    apply hother hint' (hsplit ▸ mem_append_left _ hin)
    exact hhints.2.2 hint' hin hint mem_cons_self
  have hpost : splitOp specs post { o with volatile := some ("v" ++ toString k) } =
      { o with volatile := some ("v" ++ toString k) } := by
    apply splitOp_of_notMem
    intro hint' hin
    apply hother hint' (hsplit ▸ mem_append_right _ (mem_cons_of_mem hint hin))
    rintro rfl
    exact (nodup_cons.mp hhints.2.1).1 hin
  have hhere : hintOp specs o hint = { o with volatile := some ("v" ++ toString k) } :=
    hintOp_of_mem (hasBaseSlot_of_called hcalled hnone) hgroup hmem fun k' group' hgroup' hmem' =>
      h.group_unique hhint hgroup' hgroup hmem' hmem
  unfold splitOp at hpre hpost ⊢
  rw [hsplit, foldl_append, foldl_cons, hpre, hhere, hpost]

/-- An instance of a split slot ends up in the slot of its group. -/
theorem SplitsFit.calledSlot_splitOp :
    calledSlot specs (splitOp specs hints o) = some (variantSlot hint.slot k) := by
  obtain ⟨hnone, hcalled⟩ :=
    h.instance_of_mem hhint (mem_of_getElem? hgroup) ho hmem
  rw [h.splitOp_of_mem hhint hgroup ho hmem]
  unfold calledSlot slotOf slotIdOf at hcalled ⊢
  split at hcalled
  case isTrue => cases hcalled
  case isFalse halias =>
    rw [hnone] at hcalled
    rw [if_neg halias]
    obtain ⟨sig, hsig, hbase⟩ := Option.map_eq_some_iff.mp hcalled
    show (specs o.rest.kind).map _ = _
    rw [hsig, Option.map_some, variantSlot]
    exact congrArg (fun s => some (s ++ "__" ++ ("v" ++ toString k))) hbase

end

end

/-! ### The hints of the decisions -/

section
variable {E : PlanEnv σ} {ops : List (PlanOp σ)} {plans : List (String × SlotPlan σ)}

theorem mem_instancesOf {sid : String} {o : PlanOp σ} :
    o ∈ instancesOf specs ops sid ↔ o ∈ ops ∧ calledSlot specs o = some sid := by
  rw [instancesOf, mem_filter, decide_eq_true_eq]

section
variable (h : E.slotPlans ops = .ok plans)
include h

/-- There is one decision for each slot that is called. -/
theorem PlanEnv.map_fst_slotPlans :
    plans.map Prod.fst = orderedUnique (ops.filterMap (calledSlot E.specs)) := by
  have hall := Fallible.mapM_eq_ok_iff.mp h
  clear h
  generalize orderedUnique (ops.filterMap (calledSlot E.specs)) = sids at hall
  induction hall with
  | nil => rfl
  | cons hhead _ ih =>
    obtain ⟨plan, -, hpair⟩ := Fallible.bind_eq_ok_iff.mp hhead
    rw [map_cons, ih, ← Except.ok.inj hpair]

theorem PlanEnv.nodup_slotPlans :
    (plans.map Prod.fst).Nodup := by
  rw [map_fst_slotPlans h]
  exact nodup_orderedUnique _

/-- The decision for a slot is made from its instances. -/
theorem PlanEnv.exists_of_mem_slotPlans {sid : String} {plan : SlotPlan σ}
    (hmem : (sid, plan) ∈ plans) :
    ∃ first ∈ instancesOf E.specs ops sid, ∃ sig, E.specs first.rest.kind = some sig ∧
      E.planOf sig first (instancesOf E.specs ops sid) = .ok plan := by
  obtain ⟨sid', hsid, hok⟩ := Fallible.exists_of_mem_mapM h hmem
  obtain ⟨plan', hplan, hpair⟩ := Fallible.bind_eq_ok_iff.mp hok
  obtain ⟨rfl, rfl⟩ := Prod.mk.inj (Except.ok.inj hpair)
  rw [mem_orderedUnique, mem_filterMap] at hsid
  obtain ⟨o, ho, hcalled⟩ := hsid
  have hinst := mem_instancesOf.mpr ⟨ho, hcalled⟩
  unfold PlanEnv.slotPlan at hplan
  split at hplan
  case h_1 heq => rw [heq] at hinst; cases hinst
  case h_2 first rest heq =>
    split at hplan
    case h_1 => cases hplan
    case h_2 sig hsig => exact ⟨first, by rw [heq]; exact mem_cons_self, sig, hsig, hplan⟩

end

theorem flatMap_splitGroups (parts : List (Part σ)) (left : List (PlanOp σ)) :
    (splitGroups parts left).flatMap SplitGroup.ops =
      (parts.flatMap Part.covered ++ left).map fun o => o.name := by
  unfold splitGroups
  rw [flatMap_append, map_append, map_flatMap, flatMap_map]
  congr 1
  split
  case isTrue hnil => rw [hnil]; rfl
  case isFalse => simp

/-- The hints of the decisions part the instances of their slots. -/
theorem splitsFit_of_slotPlans (hnames : (ops.map fun o => o.name).Nodup)
    (h : E.slotPlans ops = .ok plans) :
    SplitsFit E.specs ops (planHints plans) := by
  -- a hint comes from a split of its slot
  have hsplit : ∀ hint ∈ planHints plans, ∃ parts left,
      (hint.slot, SlotPlan.split parts left) ∈ plans ∧ hint.groups = splitGroups parts left ∧
        ∃ sig, SplitSpec E sig (instancesOf E.specs ops hint.slot) parts left := by
    intro hint hmem
    obtain ⟨⟨sid, plan⟩, hplan, hhint⟩ := mem_filterMap.mp hmem
    cases plan with
    | hand => cases hhint
    | whole => cases hhint
    | split parts left =>
      rw [← Option.some.inj hhint]
      obtain ⟨first, -, sig, -, hok⟩ := PlanEnv.exists_of_mem_slotPlans h hplan
      exact ⟨parts, left, hplan, rfl, sig, PlanEnv.planOf_split hok⟩
  have hperm : ∀ hint ∈ planHints plans, (hint.groups.flatMap SplitGroup.ops).Perm
        ((instancesOf E.specs ops hint.slot).map fun o => o.name) := by
    intro hint hmem
    obtain ⟨parts, left, -, hgroups, sig, hspec⟩ := hsplit hint hmem
    rw [hgroups, flatMap_splitGroups]
    exact hspec.partition.map _
  constructor
  case names => exact hnames
  case slots =>
    have hsub : ((planHints plans).map SplitHint.slot).Sublist (plans.map Prod.fst) := by
      rw [planHints, map_filterMap, ← filterMap_eq_map]
      apply filterMap_sublist
      rintro ⟨sid, plan⟩ slot hslot
      obtain ⟨hint, hhint, rfl⟩ := Option.map_eq_some_iff.mp hslot
      cases plan with
      | hand => cases hhint
      | whole => cases hhint
      | split parts left => rw [← Option.some.inj hhint]; rfl
    exact (PlanEnv.nodup_slotPlans h).sublist hsub
  case called =>
    intro hint hmem group hgroup n hn
    obtain ⟨o, ho, rfl⟩ := mem_map.mp
      ((hperm hint hmem).mem_iff.mp (mem_flatMap.mpr ⟨group, hgroup, hn⟩))
    obtain ⟨_, _, -, -, _, hspec⟩ := hsplit hint hmem
    obtain ⟨hops, hcalled⟩ := mem_instancesOf.mp ho
    exact ⟨o, hops, rfl, hspec.noVariant o ho, hcalled⟩
  case complete =>
    intro hint hmem o ho hcalled
    have hname := (hperm hint hmem).mem_iff.mpr (mem_map_of_mem (mem_instancesOf.mpr ⟨ho, hcalled⟩))
    obtain ⟨group, hgroup, hn⟩ := mem_flatMap.mp hname
    obtain ⟨k, hk⟩ := getElem?_of_mem hgroup
    exact ⟨k, group, hk, hn⟩
  case nodup =>
    intro hint hmem
    rw [(hperm hint hmem).nodup_iff]
    exact hnames.sublist (filter_sublist.map _)
  case nonempty =>
    intro hint hmem group hgroup
    obtain ⟨parts, left, -, hgroups, _, hspec⟩ := hsplit hint hmem
    rw [hgroups, splitGroups, mem_append] at hgroup
    rcases hgroup with hpart | hleft
    · obtain ⟨part, hin, rfl⟩ := mem_map.mp hpart
      simpa using hspec.nonempty part hin
    · split at hleft
      case isTrue => cases hleft
      case isFalse hne =>
        rw [mem_singleton.mp hleft]
        simpa using hne
  case several =>
    intro hint hmem
    obtain ⟨parts, left, -, hgroups, _, hspec⟩ := hsplit hint hmem
    rw [hgroups]
    exact hspec.several

end

end ModelBlaster.KernelCache
