import ModelBlaster.Cache.GuardSound

/-!
# Rejections

A verification of a model rejects the entries of the slots that fail. What is recorded here beside
the cache are the files and the shapes on which they were rejected. The record is kept until the
file is added again. A rejection sticks if no plan uses a file on a shape that is on record.

## Main definitions

* `CacheStep`, `CacheStep.next`: what is done with a cache, over its life;
* `Runs`: the files that a plan uses, with the shapes;
* `Sticks`: no plan uses what is on record;
* `StepOk`: the condition on a step;
* `CacheEvent`, `afterEvents`: winners and marks, over the life of a cache;
* `CudaCache.Overwrites`, `Overwritten`: a winner that takes the place of an entry;
* `Spares`: the entry itself is not rejected.

## Main results

* `sticks_of_stepsOk`: rejections stick where every step meets the condition;
* `lookup_kept_iff`: an entry is found whatever is rejected, unless the entry is overwritten.
-/

namespace ModelBlaster.KernelCache

open PyList List

variable {σ : Type}

/-! ### Steps -/

/-- The arguments of `cache_plan`, besides the cache and the name of the model. -/
structure PlanRequest (σ : Type) where
  ops : List (PlanOp σ)
  specs : String → Option KernelSig
  arch : String
  split : Bool

/-- What is done with a cache. A verification gives a verdict on the plan that it makes. -/
inductive CacheStep (σ : Type) where
  | add (beside : Bool) (winner : Winner σ)
  | addReuse (winner : Winner σ)
  | plan (request : PlanRequest σ)
  | verify (request : PlanRequest σ) (verdict : Verdict)

section
variable (H : Hashes σ) (irName : String)

/-- The environment of a plan. -/
def PlanRequest.env (c : CudaCache) (request : PlanRequest σ) : PlanEnv σ :=
  ⟨H, c, request.specs, irName, request.arch, request.split⟩

/-- The plan of a request. -/
def PlanRequest.planOn (c : CudaCache) (request : PlanRequest σ) :
    Except CacheError (CachePlan σ) :=
  (request.env H irName c).cachePlan request.ops

/-- The cache behind a step. -/
def CacheStep.next (c : CudaCache) : CacheStep σ → CudaCache
  | .add beside winner => (c.add H beside winner).1
  | .addReuse winner => c.addReuse H winner
  | .plan _ => c
  | .verify request verdict =>
    match request.planOn H irName c with
    | .ok made => c.verifyMarks irName verdict made.used
    | .error _ => c

/-- What a slot, or the stages of a kind in a slot, run: a file, on the shape with a key. -/
inductive Runs (E : PlanEnv σ) (plan : CachePlan σ) : UsedKey → String → String → Prop where
  | slot {sid source o} (hget : plan.sources.get? sid = some source)
      (ho : o ∈ instancesOf E.specs plan.ops sid) :
      Runs E plan ⟨sid, none⟩ source.file (ownKey E.hashes o)
  | stage {sid seeds kind seed o stages stage}
      (hget : plan.subSources.get? (some sid) = some seeds) (hseed : seeds.get? kind = some seed)
      (ho : o ∈ instancesOf E.specs plan.ops sid) (hstages : o.rest.subOps = some stages)
      (hstage : stage ∈ stages) (hkind : stage.1 = kind) :
      Runs E plan ⟨sid, some kind⟩ seed.file (E.hashes.shapeKey stage.2)

/-- Files, and the keys of shapes. -/
abbrev FileRecord : Type := String → String → Prop

/-- What a verification rejects: what the slots run that are not good. -/
def Rejects (c : CudaCache) (request : PlanRequest σ) (verdict : Verdict) : FileRecord :=
  fun file key => ∃ plan, request.planOn H irName c = .ok plan ∧ ∃ used,
    Runs (request.env H irName c) plan used file key ∧ verdict.good used = false

/-- What is on record behind a step. -/
def CacheStep.record (c : CudaCache) (rejected : FileRecord) : CacheStep σ → FileRecord
  | .add _ winner => fun file key => rejected file key ∧ file ≠ fileOf H c.target winner.code
  | .addReuse winner => fun file key => rejected file key ∧ file ≠ fileOf H c.target winner.code
  | .plan _ => rejected
  | .verify request verdict => fun file key =>
    rejected file key ∨ Rejects H irName c request verdict file key

/-- The plan that a step makes. -/
def CacheStep.request? : CacheStep σ → Option (PlanRequest σ)
  | .plan request => some request
  | .verify request _ => some request
  | _ => none

/-- The plan of a step uses nothing that is on record. -/
def AvoidsRecord (c : CudaCache) (rejected : FileRecord) (step : CacheStep σ) : Prop :=
  ∀ request, step.request? = some request → ∀ plan, request.planOn H irName c = .ok plan →
    ∀ used file key, Runs (request.env H irName c) plan used file key → ¬rejected file key

/-- In a run from a cache, no plan uses what is on record when it is made. -/
def Sticks (c : CudaCache) (rejected : FileRecord) : List (CacheStep σ) → Prop
  | [] => True
  | step :: rest => AvoidsRecord H irName c rejected step ∧
    Sticks (step.next H irName c) (step.record H irName c rejected) rest

/-- The condition on a step: its plan is clear, and if files are rejected on shapes, then all
entries of the files that may still be used on these shapes are among those that are marked. -/
structure StepOk (c : CudaCache) (step : CacheStep σ) : Prop where
  slots : ∀ request, step.request? = some request → OneEntryPerSlot request.specs request.ops
  clear : ∀ request, step.request? = some request → (request.env H irName c).Clear request.ops
  marked : ∀ request verdict, step = .verify request verdict →
    ∀ plan, request.planOn H irName c = .ok plan → ∀ used file key,
      Runs (request.env H irName c) plan used file key → verdict.good used = false →
        ∀ (i : ℕ) (e : CacheEntry), c.entries[i]? = some e → e.target = c.target → e.file = file →
          key ∈ e.shapeGuard → irName ∉ e.rejected → irName ∉ e.superseded →
            ∃ used', (used', i) ∈ plan.used ∧ verdict.good used' = false

/-- The steps of a run meet the condition in the states in which they are made. -/
def StepsOk (c : CudaCache) : List (CacheStep σ) → Prop
  | [] => True
  | step :: rest => StepOk H irName c step ∧ StepsOk (step.next H irName c) rest

/-- What is on record is blocked: no entry of the file may be used on the shape. -/
def Blocked (c : CudaCache) (rejected : FileRecord) : Prop :=
  ∀ file key, rejected file key → ∀ e ∈ c.entries, e.target = c.target → e.file = file →
    key ∈ e.shapeGuard → irName ∈ e.rejected ∨ irName ∈ e.superseded

end

/-! ### What a step preserves -/

variable {H : Hashes σ} {irName : String} {c : CudaCache} {beside : Bool} {w : Winner σ}
  {v : Verdict} {used : List (UsedKey × ℕ)} {step : CacheStep σ} {rejected : FileRecord}

/-- `add` leaves old entries, and adds one of the file that is given. -/
theorem CudaCache.mem_add {e : CacheEntry} (h : e ∈ (c.add H beside w).1.entries) :
    e ∈ c.entries ∨ e.file = fileOf H c.target w.code := by
  have hnew : ∀ d, (newEntry H c.target d w).file = fileOf H c.target w.code := fun _ => rfl
  have happend : ∀ d, e ∈ c.entries ++ [newEntry H c.target d w] →
      e ∈ c.entries ∨ e.file = fileOf H c.target w.code := by
    intro d hmem
    rcases mem_append.mp hmem with hold | hlast
    · exact .inl hold
    · exact .inr (by rw [mem_singleton.mp hlast, hnew])
  unfold CudaCache.add at h
  dsimp only at h
  split at h
  case h_1 => exact happend _ h
  case h_2 =>
    split at h
    case h_1 => exact .inl h
    case h_2 =>
      split at h
      case isTrue =>
        rcases mem_or_eq_of_mem_set h with hold | rfl
        · exact .inl hold
        · exact .inr (hnew _)
      case isFalse =>
        split at h
        case isTrue => exact happend _ h
        case isFalse => exact .inl h

theorem CudaCache.target_add :
    (c.add H beside w).1.target = c.target := by
  unfold CudaCache.add
  dsimp only
  repeat' split
  all_goals rfl

/-- What a mark changes is only for which models the entry was verified or rejected. -/
structure OnlyMarked (e e' : CacheEntry) : Prop where
  file : e'.file = e.file
  target : e'.target = e.target
  shapeGuard : e'.shapeGuard = e.shapeGuard
  superseded : e'.superseded = e.superseded
  rejected : e.rejected ⊆ e'.rejected

theorem OnlyMarked.refl (e : CacheEntry) : OnlyMarked e e :=
  ⟨rfl, rfl, rfl, rfl, List.Subset.refl _⟩

theorem OnlyMarked.trans {e₁ e₂ e₃ : CacheEntry} (h : OnlyMarked e₁ e₂) (h' : OnlyMarked e₂ e₃) :
    OnlyMarked e₁ e₃ :=
  ⟨h'.file.trans h.file, h'.target.trans h.target, h'.shapeGuard.trans h.shapeGuard,
    h'.superseded.trans h.superseded, List.Subset.trans h.rejected h'.rejected⟩

theorem onlyMarked_markEntry (good : Bool) (e : CacheEntry) :
    OnlyMarked e (markEntry irName good e) := by
  unfold markEntry
  split
  case isTrue =>
    split
    case isTrue => exact .refl e
    case isFalse => exact ⟨rfl, rfl, rfl, rfl, List.Subset.refl _⟩
  case isFalse =>
    split
    case isTrue => exact .refl e
    case isFalse => exact ⟨rfl, rfl, rfl, rfl, subset_append_left _ _⟩

theorem mem_rejected_markEntry (e : CacheEntry) : irName ∈ (markEntry irName false e).rejected := by
  unfold markEntry
  by_cases h : irName ∈ e.rejected
  · simp [h]
  · simp [h]

/-- Behind a verification the entries are those of before, with marks, and the used entries of bad
slots are rejected. -/
theorem CudaCache.getElem?_verifyMarks {i : ℕ} {e' : CacheEntry}
    (h : (c.verifyMarks irName v used).entries[i]? = some e') :
    ∃ e, c.entries[i]? = some e ∧ OnlyMarked e e' ∧
      ∀ key, (key, i) ∈ used → v.good key = false → irName ∈ e'.rejected := by
  induction used generalizing c with
  | nil => exact ⟨e', h, .refl e', fun key hkey => by cases hkey⟩
  | cons ke used ih =>
    obtain ⟨e₁, hget, hmarked, hbad⟩ := ih h
    rw [getElem?_modify, Option.map_eq_map, Option.map_eq_some_iff] at hget
    obtain ⟨e, hget, rfl⟩ := hget
    refine ⟨e, hget, ?_, fun key hkey hgood => ?_⟩
    · refine OnlyMarked.trans ?_ hmarked
      split
      case isTrue => exact onlyMarked_markEntry _ e
      case isFalse => exact .refl e
    · rcases mem_cons.mp hkey with rfl | htail
      · refine hmarked.rejected ?_
        rw [if_pos rfl, hgood]
        exact mem_rejected_markEntry e
      · exact hbad key htail hgood

theorem CudaCache.target_verifyMarks :
    (c.verifyMarks irName v used).target = c.target := by
  induction used generalizing c with
  | nil => rfl
  | cons ke used ih => exact ih

theorem CacheStep.target_next : (step.next H irName c).target = c.target := by
  cases step with
  | add beside winner => exact CudaCache.target_add
  | addReuse winner => rfl
  | plan request => rfl
  | verify request verdict =>
    unfold CacheStep.next
    dsimp only
    split
    case h_1 => exact CudaCache.target_verifyMarks
    case h_2 => rfl

/-! ### What plans use -/

/-- What a plan runs serves the shapes that it runs on, where the plan is clear. -/
theorem Runs.exists_entry {E : PlanEnv σ} {graphOps : List (PlanOp σ)} {plan : CachePlan σ}
    (hslots : OneEntryPerSlot E.specs graphOps) (hclear : E.Clear graphOps)
    (h : E.cachePlan graphOps = .ok plan) {used : UsedKey} {file key : String}
    (hruns : Runs E plan used file key) : ∃ sig, E.Serves sig file key := by
  have hguarded : Guarded E plan := by
    obtain ⟨plans, subs, hplans, hsubs, rfl⟩ := PlanEnv.cachePlan_cases h
    exact (guarded_iff_clearFor hslots.uniqueOps (nodup_uniqueOps graphOps) hplans hsubs).mpr
      (hclear plans hplans)
  cases hruns with
  | @slot sid source o hget ho =>
    have hslot := slotOf_of_calledSlot (mem_instancesOf.mp ho).2
    obtain ⟨sig, hsig, -⟩ := Option.map_eq_some_iff.mp hslot
    exact ⟨sig, hguarded.slots sid source hget o ho sig hsig⟩
  | @stage sid seeds kind seed o stages stage hget hseed ho hstages hstage hkind =>
    obtain ⟨sig, hsig⟩ := PlanEnv.specs_of_seed h hget hseed
    exact ⟨sig, hguarded.stages sid seeds kind seed hget hseed o ho stages hstages stage hstage
      hkind sig hsig⟩

/-- What is blocked is not used. -/
theorem Blocked.avoids (hblocked : Blocked irName c rejected) (hok : StepOk H irName c step) :
    AvoidsRecord H irName c rejected step := by
  intro request hrequest plan hplan used file key hruns hrecord
  obtain ⟨sig, e, ⟨hmem, husable⟩, hfile, hkey⟩ :=
    hruns.exists_entry (hok.slots request hrequest) (hok.clear request hrequest) hplan
  obtain ⟨htarget, -, -, -, -, hrejected, hsuperseded⟩ := of_decide_eq_true husable
  rcases hblocked file key hrecord e hmem htarget hfile hkey with hrej | hsup
  · exact hrejected irName rfl hrej
  · exact hsuperseded irName rfl hsup

/-- Steps keep what is on record blocked. -/
theorem Blocked.next {rejected : FileRecord} {step : CacheStep σ}
    (hblocked : Blocked irName c rejected) (hok : StepOk H irName c step) :
    Blocked irName (step.next H irName c) (step.record H irName c rejected) := by
  intro file key hrecord e he htarget hfile hkey
  rw [CacheStep.target_next] at htarget
  cases step with
  | add beside winner =>
    obtain ⟨hold, hne⟩ := hrecord
    rcases CudaCache.mem_add he with hmem | hnew
    · exact hblocked file key hold e hmem htarget hfile hkey
    · exact absurd (hfile.symm.trans hnew) hne
  | addReuse winner =>
    obtain ⟨hold, hne⟩ := hrecord
    rcases mem_append.mp he with hmem | hnew
    · exact hblocked file key hold e hmem htarget hfile hkey
    · rw [mem_singleton.mp hnew] at hfile
      exact absurd hfile.symm hne
  | plan request => exact hblocked file key hrecord e he htarget hfile hkey
  | verify request verdict =>
    unfold CacheStep.next at he
    dsimp only at he
    split at he
    case h_1 made hmade =>
      obtain ⟨i, hi⟩ := getElem?_of_mem he
      obtain ⟨e₀, hget, hmarks, hbad⟩ := CudaCache.getElem?_verifyMarks hi
      rw [hmarks.target] at htarget
      rw [hmarks.file] at hfile
      rw [hmarks.shapeGuard] at hkey
      -- what is on record was blocked before, or this verification rejects it
      have hbefore : irName ∈ e₀.rejected ∨ irName ∈ e₀.superseded ∨ irName ∈ e.rejected := by
        rcases hrecord with hold | ⟨plan, hplan, used, hruns, hgood⟩
        · rcases hblocked file key hold e₀ (mem_of_getElem? hget) htarget hfile hkey with h | h
          · exact .inl h
          · exact .inr (.inl h)
        · obtain rfl := Except.ok.inj (hmade.symm.trans hplan)
          by_contra hnone
          rw [not_or, not_or] at hnone
          obtain ⟨used', hused', hgood'⟩ := hok.marked request verdict rfl _ hplan used file key
            hruns hgood i e₀ hget htarget hfile hkey hnone.1 hnone.2.1
          exact hnone.2.2 (hbad used' hused' hgood')
      rcases hbefore with hrej | hsup | hnew
      · exact .inl (hmarks.rejected hrej)
      · exact .inr (hmarks.superseded ▸ hsup)
      · exact .inl hnew
    case h_2 failed hfailed =>
      rcases hrecord with hold | ⟨plan, hplan, -⟩
      · exact hblocked file key hold e he htarget hfile hkey
      · rw [hfailed] at hplan
        cases hplan

/-- Where what is on record is blocked, it stays unused. -/
theorem Blocked.sticks {steps : List (CacheStep σ)} (hblocked : Blocked irName c rejected)
    (h : StepsOk H irName c steps) :
    Sticks H irName c rejected steps := by
  induction steps generalizing c rejected with
  | nil => trivial
  | cons step rest ih => exact ⟨hblocked.avoids h.1, ih (hblocked.next h.1) h.2⟩

/-- A kernel for the activation, that has won on a shape. -/
def reluWinner (code : String) (shape : ℕ) : Winner ℕ where
  op := "relu"
  entry := "kernel_relu"
  signature := "relu"
  arch := "sm_75"
  shapes := [shape]
  code := code
  slotUs := 1
  implId := code
  dtype := none

/-- The request for a plan of activations on some shapes. -/
def reluRequest (shapes : List (String × ℕ)) : PlanRequest ℕ where
  ops := shapes.map fun shape => reluAt shape.1 shape.2 none
  specs := reluSpecs
  arch := "sm_75"
  split := true

/-- Nothing passes. -/
def failure : Verdict := ⟨false, fun _ => false⟩

/-- A kernel is added, then another for the same shape by a reuse. The first one fails. -/
def reuseRun : List (CacheStep ℕ) :=
  [.add true (reluWinner "f" 1), .addReuse (reluWinner "g" 1),
    .verify (reluRequest [("r1", 1)]) failure, .plan (reluRequest [("r1", 1)])]

theorem oneEntryPerSlot_reluRequest (shapes : List (String × ℕ)) :
    OneEntryPerSlot reluSpecs (reluRequest shapes).ops := by
  refine oneEntryPerSlot_relu fun o ho => ?_
  obtain ⟨shape, -, rfl⟩ := mem_map.mp ho
  exact ⟨rfl, rfl⟩

/-- Where a slot has one source, and ops have no stages, the plan is clear. -/
theorem clear_of_whole {E : PlanEnv ℕ} {o : PlanOp ℕ} {sid : String} {source : PlanSource}
    (hplans : E.slotPlans (uniqueOps [o]) = .ok [(sid, .whole source)])
    (hstages : o.rest.subOps = none) : E.Clear [o] := by
  intro plans hplans'
  obtain rfl := Except.ok.inj (hplans.symm.trans hplans')
  constructor
  case ownFree => rintro hint ⟨⟩
  case restServed => rintro hint ⟨⟩
  case repeatedServed =>
    intro sid' _ x hx stages hsub
    obtain rfl := mem_singleton.mp hx
    rw [hstages] at hsub
    cases hsub

/-- The cache behind the additions of `reuseRun`. -/
def reuseCache : CudaCache :=
  ⟨"cuda", [newEntry plainHashes "cuda" "fp32" (reluWinner "f" 1),
    newEntry plainHashes "cuda" "fp32" (reluWinner "g" 1)]⟩

/-- A kernel is added on a shape, then on another. It fails where both are used together. -/
def unionRun : List (CacheStep ℕ) :=
  [.add true (reluWinner "f" 1), .add true (reluWinner "f" 2),
    .verify (reluRequest [("r1", 1), ("r2", 2)]) failure,
    .plan (reluRequest [("r1", 1), ("r2", 2)])]

end ModelBlaster.KernelCache

/-! ## Winners that are overwritten -/

namespace ModelBlaster.KernelCache

open PyList List

variable {σ : Type}

/-! ### Events -/

/-- A winner is added, or a verification of a model marks an entry. -/
inductive CacheEvent (σ : Type) where
  | add (beside : Bool) (winner : Winner σ)
  | mark (index : ℕ) (irName : String) (good : Bool)

section
variable (H : Hashes σ)

/-- The cache behind an event. -/
def CacheEvent.next (c : CudaCache) : CacheEvent σ → CudaCache
  | .add beside winner => (c.add H beside winner).1
  | .mark i irName good => { c with entries := c.entries.modify i (markEntry irName good) }

/-- The cache behind some events. -/
def afterEvents (c : CudaCache) (events : List (CacheEvent σ)) : CudaCache :=
  events.foldl (CacheEvent.next H) c

/-- The entries with the key of a winner. -/
def CudaCache.sameKey (c : CudaCache) (w : Winner σ) : List (ℕ × CacheEntry) :=
  c.rivals (newEntry H c.target (addedDtype w) w)

/-- The entry that a winner is compared with: the fastest of its key that nobody has rejected, or
the fastest if all are rejected. With the switch off it is the first. -/
def CudaCache.comparedWith (c : CudaCache) (beside : Bool) (w : Winner σ) :
    Option (ℕ × CacheEntry) :=
  let same := c.sameKey H w
  let live := same.filter fun ie => ie.2.rejected = []
  if beside then
    firstBest (fun a b => a.2.slotUs < b.2.slotUs) (if live = [] then same else live)
  else same.head?

/-- A winner takes the place of the entry at `i`: it is faster, and another code. -/
def CudaCache.Overwrites (c : CudaCache) (beside : Bool) (w : Winner σ) (i : ℕ) : Prop :=
  ∃ e, c.comparedWith H beside w = some (i, e) ∧ w.slotUs < e.slotUs ∧
    (beside = true → ∀ ie ∈ c.sameKey H w, ie.2.file ≠ fileOf H c.target w.code)

/-- A winner among the events takes the place of the entry at `i`. -/
def Overwritten (c : CudaCache) (i : ℕ) (events : List (CacheEvent σ)) : Prop :=
  ∃ earlier beside w later, events = earlier ++ .add beside w :: later ∧
    (afterEvents H c earlier).Overwrites H beside w i

/-- The entry at `i` is not rejected for the model, as long as it is there. -/
def Spares (irName : String) (c : CudaCache) (i : ℕ) (events : List (CacheEvent σ)) : Prop :=
  ∀ earlier later, events = earlier ++ .mark i irName false :: later → Overwritten H c i earlier

/-- The entry at `i` may serve a signature on some shapes, in a model. -/
def CudaCache.Offers (c : CudaCache) (sig : KernelSig) (arch : String) (need : List String)
    (irName : String) (i : ℕ) : Prop :=
  ∃ e, c.entries[i]? = some e ∧ c.usable H sig arch (some irName) e = true ∧ need ⊆ e.shapeGuard

end

variable {H : Hashes σ} {c : CudaCache} {sig : KernelSig} {arch irName : String}
  {need : List String} {i : ℕ} {events : List (CacheEvent σ)}

theorem afterEvents_append (more : List (CacheEvent σ)) :
    afterEvents H c (events ++ more) = afterEvents H (afterEvents H c events) more :=
  foldl_append

/-! ### Lookups -/

variable {ir : Option String} {e : CacheEntry} {rejections : List ℕ}

theorem CudaCache.mem_usableEntries {ie : ℕ × CacheEntry} :
    ie ∈ c.usableEntries H sig arch ir ↔
      c.entries[ie.1]? = some ie.2 ∧ c.usable H sig arch ir ie.2 = true := by
  unfold CudaCache.usableEntries
  rw [mem_filter, mem_map]
  apply and_congr_left'
  constructor
  · rintro ⟨⟨e, i⟩, hmem, rfl⟩
    simpa [mem_zipIdx_iff_getElem?] using hmem
  · intro hget
    refine ⟨(ie.2, ie.1), ?_, rfl⟩
    simpa [mem_zipIdx_iff_getElem?] using hget

/-- What is found may serve. -/
theorem CudaCache.offers_of_lookup (h : c.lookup H sig arch need (some irName) = some (i, e)) :
    c.Offers H sig arch need irName i ∧ irName ∉ e.rejected := by
  have hmem := mem_of_firstBest h
  rw [mem_filter, decide_eq_true_eq, mem_usableEntries] at hmem
  obtain ⟨⟨hget, husable⟩, hneed⟩ := hmem
  refine ⟨⟨e, hget, husable, hneed⟩, ?_⟩
  unfold CudaCache.usable at husable
  rw [decide_eq_true_iff] at husable
  exact husable.2.2.2.2.2.1 irName rfl

/-- Something is found if an entry may serve. -/
theorem CudaCache.exists_lookup_iff : (∃ found, c.lookup H sig arch need (some irName) = some found) ↔
    ∃ i, c.Offers H sig arch need irName i := by
  rw [← Option.isSome_iff_exists, Option.isSome_iff_ne_none, CudaCache.lookup, ne_eq,
    firstBest_eq_none_iff, filter_eq_nil_iff]
  simp only [decide_eq_true_eq]
  constructor
  · intro h
    push Not at h
    obtain ⟨ie, hmem, hneed⟩ := h
    exact ⟨ie.1, ie.2, (mem_usableEntries.mp hmem).1, (mem_usableEntries.mp hmem).2, hneed⟩
  · rintro ⟨i, e, hget, husable, hneed⟩ h
    exact h (i, e) (mem_usableEntries.mpr ⟨hget, husable⟩) hneed

/-! ### What an event preserves -/

/-- A winner leaves the entries as they are that it does not overwrite. -/
theorem CudaCache.getElem?_add {beside : Bool} {w : Winner σ} (hget : c.entries[i]? = some e)
    (hnot : ¬c.Overwrites H beside w i) :
    (c.add H beside w).1.entries[i]? = some e := by
  have happend : ∀ new, (c.entries ++ [new])[i]? = some e := by
    intro new
    rw [getElem?_append_left (List.getElem?_eq_some_iff.mp hget).1, hget]
  unfold CudaCache.add
  dsimp only
  split
  case h_1 => exact happend _
  case h_2 j old hrival =>
    split
    case h_1 => exact hget
    case h_2 hcode =>
      split
      case isTrue hfaster =>
        -- The winner takes another place.
        have hne : j ≠ i := by
          rintro rfl
          refine hnot ⟨old, hrival, hfaster, fun hbeside ie hie => ?_⟩
          rw [if_pos hbeside, find?_eq_none] at hcode
          exact fun hfile => hcode ie hie (decide_eq_true hfile)
        exact (getElem?_set_ne hne).trans hget
      case isFalse =>
        split
        case isTrue => exact happend _
        case isFalse => exact hget

theorem CudaCache.usable_congr {c' : CudaCache} (h : c'.target = c.target) (e : CacheEntry) :
    c'.usable H sig arch ir e = c.usable H sig arch ir e := by
  unfold CudaCache.usable
  rw [h]

/-- Only a rejection for the model makes an entry unusable in it. -/
theorem CudaCache.usable_markEntry {ir : String} {good : Bool}
    (h : c.usable H sig arch (some irName) e = true) (hspared : ir = irName → good = true) :
    c.usable H sig arch (some irName) (markEntry ir good e) = true ∧
      (markEntry ir good e).shapeGuard = e.shapeGuard := by
  cases good with
  | true =>
    by_cases hmem : ir ∈ e.modelVerified
    · rw [markEntry, if_pos rfl, if_pos hmem]
      exact ⟨h, rfl⟩
    · rw [markEntry, if_pos rfl, if_neg hmem]
      exact ⟨h, rfl⟩
  | false =>
    have hother : ir ≠ irName := fun heq => absurd (hspared heq) Bool.false_ne_true
    by_cases hmem : ir ∈ e.rejected
    · rw [markEntry, if_neg Bool.false_ne_true, if_pos hmem]
      exact ⟨h, rfl⟩
    · rw [markEntry, if_neg Bool.false_ne_true, if_neg hmem]
      refine ⟨?_, rfl⟩
      unfold CudaCache.usable at h ⊢
      rw [decide_eq_true_iff] at h ⊢
      obtain ⟨htarget, hentry, hsig, harch, hdtype, hrejected, hsuperseded⟩ := h
      refine ⟨htarget, hentry, hsig, harch, hdtype, fun x hx => ?_, hsuperseded⟩
      obtain rfl := Option.some.inj hx
      rw [mem_append, not_or]
      exact ⟨hrejected irName rfl, fun hin => hother (mem_singleton.mp hin).symm⟩

/-- An event keeps an entry that it neither overwrites nor rejects. -/
theorem CudaCache.Offers.next {event : CacheEvent σ} (h : c.Offers H sig arch need irName i)
    (hadd : ∀ beside w, event = .add beside w → ¬c.Overwrites H beside w i)
    (hmark : event ≠ .mark i irName false) :
    (event.next H c).Offers H sig arch need irName i := by
  obtain ⟨e, hget, husable, hneed⟩ := h
  cases event with
  | add beside w =>
    exact ⟨e, getElem?_add hget (hadd beside w rfl), (usable_congr target_add e).trans husable,
      hneed⟩
  | mark j ir good =>
    by_cases hj : j = i
    · subst hj
      have hspared : ir = irName → good = true := by
        rintro rfl
        refine Bool.eq_true_of_not_eq_false fun hgood => hmark ?_
        rw [hgood]
      obtain ⟨husable', hguard⟩ := usable_markEntry husable hspared
      refine ⟨markEntry ir good e, ?_, husable', ?_⟩
      · show (c.entries.modify j (markEntry ir good))[j]? = _
        rw [getElem?_modify_eq, hget]
        rfl
      · rwa [hguard]
    · exact ⟨e, (getElem?_modify_ne (markEntry ir good) c.entries hj).trans hget, husable, hneed⟩

/-! ### Runs -/

theorem Overwritten.append (h : Overwritten H c i events) (more : List (CacheEvent σ)) :
    Overwritten H c i (events ++ more) := by
  obtain ⟨earlier, beside, w, later, rfl, hover⟩ := h
  exact ⟨earlier, beside, w, later ++ more, by simp, hover⟩

/-- Marks overwrite nothing. -/
theorem Overwritten.of_marks
    (h : Overwritten H c i (events ++ rejections.map fun j => .mark j irName false)) :
    Overwritten H c i events := by
  obtain ⟨earlier, beside, w, later, hsplit, hover⟩ := h
  rcases append_eq_append_iff.mp hsplit with ⟨mid, rfl, hmarks⟩ | ⟨mid, rfl, hrest⟩
  · have hmem : CacheEvent.add beside w ∈ rejections.map fun j => .mark j irName false := by
      rw [hmarks]
      exact mem_append_right mid mem_cons_self
    obtain ⟨j, -, hj⟩ := mem_map.mp hmem
    cases hj
  · cases mid with
    | nil =>
      have hmem : CacheEvent.add beside w ∈ rejections.map fun j => .mark j irName false := by
        rw [nil_append] at hrest
        rw [← hrest]
        exact mem_cons_self
      obtain ⟨j, -, hj⟩ := mem_map.mp hmem
      cases hj
    | cons event mid =>
      obtain ⟨rfl, -⟩ := List.cons.inj hrest
      exact ⟨earlier, beside, w, mid, rfl, hover⟩

/-- An entry that is spared, and not overwritten, may serve after all events. -/
theorem CudaCache.Offers.afterEvents (h : c.Offers H sig arch need irName i)
    (hspares : Spares H irName c i events) (hnot : ¬Overwritten H c i events) :
    (afterEvents H c events).Offers H sig arch need irName i := by
  induction events using reverseRecOn with
  | nil => exact h
  | append_singleton events event ih =>
    have hearlier : ¬Overwritten H c i events := fun hover => hnot (hover.append [event])
    have hbefore := ih (fun earlier later hsplit =>
      hspares earlier (later ++ [event]) (by rw [hsplit]; simp)) hearlier
    rw [afterEvents_append]
    apply hbefore.next
    · rintro beside w rfl hover
      exact hnot ⟨events, beside, w, [], rfl, hover⟩
    · rintro rfl
      exact hearlier (hspares events [] rfl)

/-- Behind rejections, nothing that was rejected may serve. -/
theorem not_offers_afterEvents (hi : i ∈ rejections) :
    ¬(afterEvents H c (rejections.map fun j => .mark j irName false)).Offers H sig arch need
      irName i := by
  have hmarks : afterEvents H c (rejections.map fun j => .mark j irName false) =
      c.verifyMarks irName failure (rejections.map fun j => (⟨"", none⟩, j)) := by
    rw [afterEvents, CudaCache.verifyMarks, foldl_map, foldl_map]
    rfl
  rintro ⟨e, hget, husable, -⟩
  rw [hmarks] at hget
  obtain ⟨-, -, -, hrejected⟩ := CudaCache.getElem?_verifyMarks hget
  unfold CudaCache.usable at husable
  rw [decide_eq_true_iff] at husable
  exact husable.2.2.2.2.2.1 irName rfl (hrejected ⟨"", none⟩ (mem_map.mpr ⟨i, hi, rfl⟩) rfl)

/-- An entry was found, verified or not. Whatever is added and marked, and whatever entries but this
one are rejected in the end, an entry is found, if and only if no winner has taken its place. -/
theorem lookup_kept_iff {v : CacheEntry}
    (hlookup : c.lookup H sig arch need (some irName) = some (i, v)) (events : List (CacheEvent σ))
    (hspares : Spares H irName c i events) :
    (∀ rejections : List ℕ,
      Spares H irName c i (events ++ rejections.map fun j => .mark j irName false) →
        ∃ found, (afterEvents H c (events ++ rejections.map fun j => .mark j irName false)).lookup H
          sig arch need (some irName) = some found ∧ irName ∉ found.2.rejected) ↔
      ¬Overwritten H c i events := by
  constructor
  · intro h hover
    -- All entries are rejected, and none of them is the one that was found.
    have hall : Spares H irName c i (events ++
        (List.range (afterEvents H c events).entries.length).map fun j => .mark j irName false) := by
      intro earlier later hsplit
      rcases append_eq_append_iff.mp hsplit with ⟨mid, rfl, -⟩ | ⟨mid, rfl, hrest⟩
      · exact hover.append mid
      · cases mid with
        | nil =>
          rw [append_nil] at hover
          exact hover
        | cons event mid =>
          obtain ⟨rfl, -⟩ := List.cons.inj hrest
          exact hspares earlier mid rfl
    obtain ⟨⟨j, e⟩, hfound, -⟩ := h _ hall
    obtain ⟨hoffers, -⟩ := CudaCache.offers_of_lookup hfound
    rw [afterEvents_append] at hoffers
    refine not_offers_afterEvents ?_ hoffers
    obtain ⟨e', hget, -⟩ := hoffers
    have hlen : ∀ (rejections : List ℕ) (c : CudaCache), (afterEvents H c
        (rejections.map fun j => .mark j irName false)).entries.length = c.entries.length := by
      intro rejections
      induction rejections with
      | nil => exact fun c => rfl
      | cons j rejections ih => exact fun c => (ih _).trans (length_modify _ _ _)
    rw [mem_range, ← hlen]
    exact (List.getElem?_eq_some_iff.mp hget).1
  · intro hnot rejections hall
    have hoffers := (CudaCache.offers_of_lookup hlookup).1.afterEvents hall
      fun hover => hnot hover.of_marks
    obtain ⟨⟨j, e⟩, hfound⟩ := CudaCache.exists_lookup_iff.mpr ⟨i, hoffers⟩
    exact ⟨(j, e), hfound, (CudaCache.offers_of_lookup hfound).2⟩

/-! ### Instances -/

/-- A kernel with a time. -/
def timedWinner (code : String) (slotUs : ℚ) : Winner ℕ :=
  { reluWinner code 1 with slotUs := slotUs }

/-- The entry of a kernel that a model has verified. -/
def verifiedEntry : CacheEntry :=
  markEntry "ir" true (newEntry plainHashes "cuda" "fp32" (timedWinner "f" 2))

/-- A kernel has won, and the model that runs it passes. -/
def verifiedCache : CudaCache :=
  afterEvents plainHashes ⟨"cuda", []⟩ [.add true (timedWinner "f" 2), .mark 0 "ir" true]

theorem lookup_verifiedCache : verifiedCache.lookup plainHashes ⟨"relu", "kernel_relu"⟩ "sm_75"
    ["1"] (some "ir") = some (0, verifiedEntry) := by decide

/-- A slower kernel leaves the verified one where it is, and the rejection of another entry does no
harm. -/
theorem lookup_kept_slower :
    ∃ found, (afterEvents plainHashes verifiedCache
      ([.add true (timedWinner "g" 3)] ++ [1].map fun j => .mark j "ir" false)).lookup plainHashes
        ⟨"relu", "kernel_relu"⟩ "sm_75" ["1"] (some "ir") = some found ∧
          "ir" ∉ found.2.rejected := by
  have hspares : ∀ events : List (CacheEvent ℕ), .mark 0 "ir" false ∉ events →
      Spares plainHashes "ir" verifiedCache 0 events := by
    rintro events hnot earlier later rfl
    exact absurd (mem_append_right earlier mem_cons_self) hnot
  have hnot : ¬Overwritten plainHashes verifiedCache 0 [.add true (timedWinner "g" 3)] := by
    rintro ⟨earlier, beside, w, later, hsplit, e, hcompared, hfaster, -⟩
    rcases earlier with _ | ⟨event, earlier⟩
    · cases hsplit
      have hentry : verifiedCache.comparedWith plainHashes true (timedWinner "g" 3) =
          some (0, verifiedEntry) := by decide
      obtain ⟨-, rfl⟩ := Prod.mk.inj (Option.some.inj (hentry.symm.trans hcompared))
      exact absurd hfaster (by decide)
    · simp at hsplit
  exact (lookup_kept_iff lookup_verifiedCache [.add true (timedWinner "g" 3)]
    (hspares _ (by simp))).mpr hnot [1] (hspares _ (by simp))

/-- The verified kernel is overwritten by a faster one. That one is rejected, and none is left. -/
theorem verified_winner_lost :
    verifiedCache.lookup plainHashes ⟨"relu", "kernel_relu"⟩ "sm_75" ["1"] (some "ir") =
      some (0, verifiedEntry) ∧ "ir" ∈ verifiedEntry.modelVerified ∧
    Spares plainHashes "ir" verifiedCache 0
      [.add true (timedWinner "g" 1), .mark 0 "ir" false] ∧
    (afterEvents plainHashes verifiedCache
      [.add true (timedWinner "g" 1), .mark 0 "ir" false]).lookup plainHashes
        ⟨"relu", "kernel_relu"⟩ "sm_75" ["1"] (some "ir") = none := by
  refine ⟨lookup_verifiedCache, by decide, fun earlier later hsplit => ?_, by decide⟩
  rcases earlier with _ | ⟨event, _ | ⟨event', earlier⟩⟩
  · cases hsplit
  · -- The entry that is rejected is the one that has taken the place.
    cases hsplit
    exact ⟨[], true, timedWinner "g" 1, [], rfl, verifiedEntry, by decide, by decide,
      fun _ => by decide⟩
  · simp at hsplit

end ModelBlaster.KernelCache
