import ModelBlaster.Library.ListSchedule
import ModelBlaster.Library.PyStr
import ModelBlaster.Library.PyList

/-!
# The three-network fixture

`scripts/gen_3way_schedule.py` lays the instances of three networks out, each with tile clocks of
its own that begin at the period boundary of the instance, and puts the layouts together. Within an
instance the ops are placed in topological order, the least dispatch id first. The dependencies of
an op are the dispatches that made its inputs; through an op without a dispatch, a view, they are
followed to what made its first input.

Cycle counts are rational numbers that are not negative.

## Main definitions

* `resolve`, `buildDepGraph`: the dependencies;
* `topoLayout`: the layout of an instance;
* `generate`: the ops of the fixture;
* `Feasible`: what the fixture promises;
* `IsDelay`: how long after the period boundary a dispatch starts;
* `Fits`: the condition, on what the script is given.

## Main results

* `exists_laid`: what an instance that is laid out looks like;
* `Laid.isDelay_start`: the starts are the delays after the period boundary;
* `exists_laid_of_generate`, `get?_generate_iff`: the fixture is the union of the layouts;
* `feasible_iff`: the fixture is feasible iff the instances fit;
* `not_feasible`: two networks that begin together, and a view of two tensors.
-/

namespace ModelBlaster.ThreeWay

/-! ### Dependencies -/

/-- An op of a graph. -/
structure Op where
  /-- The dispatch, `none` for a view. -/
  dispatchId : Option ℤ
  op : String
  inputs : List String
  outputs : List String
deriving DecidableEq, Repr

/-- `tensor_producer`: the place of the last op that writes a tensor. -/
def tensorProducer (ops : List Op) : PyDict String ℕ :=
  PyDict.ofList (ops.zipIdx.flatMap fun p => p.1.outputs.map fun t => (t, p.2))

/-- The op that writes a tensor. -/
def producerOf (ops : List Op) (t : String) : Option Op :=
  ((tensorProducer ops).get? t).bind fun i => ops[i]?

/-- `resolve`, with the tensors it may still visit. -/
def resolveFrom (ops : List Op) : ℕ → List String → String → Option ℤ
  | 0, _, _ => none
  | steps + 1, seen, t =>
    if t ∈ seen then none
    else
      match producerOf ops t with
      | none => none
      | some op =>
        match op.dispatchId with
        | some did => some did
        | none =>
          match op.inputs with
          | [] => none
          | first :: _ => resolveFrom ops steps (t :: seen) first

/-- `resolve`: the dispatch that made a tensor. Every tensor it goes on from is one that an op
writes, and none is visited twice. -/
def resolve (ops : List Op) (t : String) : Option ℤ :=
  resolveFrom ops ((tensorProducer ops).keys.length + 1) [] t

/-- `deps_by_did` and `kind_by_did` -/
structure DepGraph where
  deps : PyDict ℤ (List ℤ)
  kind : PyDict ℤ String

/-- `_build_dep_graph` -/
def buildDepGraph (ops : List Op) : DepGraph where
  deps := PyDict.ofList (ops.filterMap fun op => op.dispatchId.map fun did =>
    (did, PyList.sortedSet ((op.inputs.filterMap (resolve ops)).filter (· ≠ did))))
  kind := PyDict.ofList (ops.filterMap fun op => op.dispatchId.map fun did => (did, op.op))

/-! ### The layout of an instance -/

/-- An op of the fixture. -/
structure Dispatch where
  id : ℤ
  ordinal : ℕ := 1
  total : ℕ := 1
  dependencies : List String
  hardwareTarget : String
  startTime : ℚ
  duration : ℚ
  jobName : String
  moduleName : String
deriving DecidableEq, Repr

/-- When an op ends. -/
def Dispatch.stop (d : Dispatch) : ℚ := d.startTime + d.duration

/-- Why no fixture is written. -/
inductive GenError where
  /-- `RuntimeError`: the dependencies have a cycle. -/
  | topologicalOrderIncomplete (placed total : ℕ)
  /-- `KeyError`. -/
  | key (did : ℤ)
  /-- `ValueError`: the latest end of no ops. -/
  | emptyMax
deriving DecidableEq, Repr

/-- `deps_by_did[did]` -/
def DepGraph.depsOf (g : DepGraph) (did : ℤ) : List ℤ := (g.deps.get? did).getD []

/-- `kind_by_did[did]` -/
def DepGraph.kindOf (g : DepGraph) (did : ℤ) : String := (g.kind.get? did).getD ""

/-- `target` -/
def tileOf (requantize : List String) (kind : String) : String :=
  if kind ∈ requantize then "CPU_P#0" else "CPU_E#0"

/-- `cycles_per_op.get(did, 1000.0) / 1_000_000.0` -/
def durationOf (cycles : PyDict ℤ ℚ≥0) (did : ℤ) : ℚ :=
  ((cycles.get? did).getD 1000 : ℚ≥0) / 1000000

/-- `f"{job_prefix}_dispatch_{did}"` -/
def opKey (jobPrefix : String) (did : ℤ) : String := jobPrefix ++ "_dispatch_" ++ toString did

/-- What is laid out, from a time on. -/
def jobs (g : DepGraph) (cycles : PyDict ℤ ℚ≥0) (requantize : List String) (offset : ℚ) :
    ListSchedule.Jobs ℤ String ℚ where
  deps := g.depsOf
  tile did := tileOf requantize (g.kindOf did)
  duration := durationOf cycles
  lower _ ends := ListSchedule.latest offset ends
  le_lower _ _ _ h := ListSchedule.le_latest h

/-- The op that a dispatch becomes. -/
def dispatchAt (g : DepGraph) (cycles : PyDict ℤ ℚ≥0) (requantize : List String)
    (jobPrefix : String) (did : ℤ) (start : ℚ) : Dispatch where
  id := did
  dependencies := (g.depsOf did).map (opKey jobPrefix)
  hardwareTarget := tileOf requantize (g.kindOf did)
  startTime := start
  duration := durationOf cycles did
  jobName := jobPrefix
  moduleName := jobPrefix ++ "$dispatch_" ++ toString did ++ "_" ++ g.kindOf did

/-- `order`: of the dispatches that are ready the one with the least id. -/
def layoutOrder (g : DepGraph) : List ℤ :=
  KahnLoop.sort (KahnLoop.Policy.least (· ≤ ·)) g.depsOf g.deps.keys

/-- `_topo_layout` -/
def topoLayout (g : DepGraph) (cycles : PyDict ℤ ℚ≥0) (requantize : List String) (offset : ℚ)
    (jobPrefix : String) : Except GenError (PyDict String Dispatch) :=
  -- a dependency without an entry has no list of dependents to be put on
  match (g.deps.items.flatMap Prod.snd).find? (· ∉ g.deps.keys) with
  | some did => .error (.key did)
  | none =>
    let order := layoutOrder g
    if order.length ≠ g.deps.items.length then
      .error (.topologicalOrderIncomplete order.length g.deps.items.length)
    else
      match ListSchedule.run (jobs g cycles requantize offset) (fun _ => offset) order with
      | .error did => .error (.key did)
      | .ok board =>
        .ok (PyDict.ofList (board.starts.items.map fun p =>
          (opKey jobPrefix p.1, dispatchAt g cycles requantize jobPrefix p.1 p.2)))

/-! ### The fixture -/

/-- What the script is given for a network. -/
structure NetArgs where
  ir : List Op
  cycles : PyDict ℤ ℚ≥0
  instances : ℤ
  periodMs : ℚ

/-- What the script is given. -/
structure Args where
  yolov8n : NetArgs
  dronet : NetArgs
  mlp : NetArgs

/-- `requantize` -/
def requantize : List String := ["conv2d_s8", "linear_s8", "linear", "linear_fp32"]

/-- An instance of a network. -/
structure Instance where
  net : NetArgs
  /-- The period boundary. -/
  offset : ℚ
  jobPrefix : String

/-- The instances of a network, with the suffix of each. -/
def instancesOf (net : NetArgs) (name : String) (suffix : ℕ → String) : List Instance :=
  (List.range net.instances.toNat).map fun i : ℕ => ⟨net, i * net.periodMs, name ++ suffix i⟩

/-- `"" if n == 1 else str(i)` -/
def optionalSuffix (n : ℤ) (i : ℕ) : String := if n = 1 then "" else toString i

/-- The instances that are laid out, in the order in which they are merged. -/
def Args.allInstances (a : Args) : List Instance :=
  instancesOf a.yolov8n "yolov8_nano" (optionalSuffix a.yolov8n.instances) ++
    instancesOf a.dronet "dronet" (optionalSuffix a.dronet.instances) ++
    instancesOf a.mlp "mlp_control" toString

/-- The layout of an instance. -/
def Instance.layout (I : Instance) : Except GenError (PyDict String Dispatch) :=
  topoLayout (buildDepGraph I.net.ir) I.net.cycles requantize I.offset I.jobPrefix

/-- `main`: the ops of the fixture. -/
def generate (a : Args) : Except GenError (PyDict String Dispatch) := do
  let layouts ← a.allInstances.mapM Instance.layout
  let allDispatches := PyDict.ofList (layouts.flatMap PyDict.items)
  if allDispatches.items = [] then .error .emptyMax else .ok allDispatches

/-! ### What the fixture promises -/

/-- The dispatch `u` made the tensor `t`, or what a view shows in `t`. -/
inductive Source (ops : List Op) : String → ℤ → Prop where
  | dispatch {t : String} {op : Op} {u : ℤ} (hop : producerOf ops t = some op)
      (hdid : op.dispatchId = some u) : Source ops t u
  | view {t t' : String} {op : Op} {u : ℤ} (hop : producerOf ops t = some op)
      (hdid : op.dispatchId = none) (hin : t' ∈ op.inputs) (hsource : Source ops t' u) :
      Source ops t u

/-- The dispatch `v` reads what `u` made, directly or through views. -/
def DataDep (ops : List Op) (v u : ℤ) : Prop :=
  u ≠ v ∧ ∃ op ∈ ops, op.dispatchId = some v ∧ ∃ t ∈ op.inputs, Source ops t u

/-- An op runs at a time. -/
def Dispatch.RunsAt (d : Dispatch) (t : ℚ) : Prop := d.startTime ≤ t ∧ t < d.stop

/-- Every op of every instance is in the fixture and starts no earlier than its period boundary and
the ends of its data dependencies, and a tile runs one op at a time. -/
structure Feasible (a : Args) (fx : PyDict String Dispatch) : Prop where
  complete : ∀ I ∈ a.allInstances, ∀ op ∈ I.net.ir, ∀ did, op.dispatchId = some did →
    ∃ d, fx.get? (opKey I.jobPrefix did) = some d ∧ I.offset ≤ d.startTime
  dep_end_le : ∀ I ∈ a.allInstances, ∀ v u dv du, DataDep I.net.ir v u →
    fx.get? (opKey I.jobPrefix v) = some dv → fx.get? (opKey I.jobPrefix u) = some du →
    du.stop ≤ dv.startTime
  exclusive : ∀ t k k' d d', fx.get? k = some d → fx.get? k' = some d' → k ≠ k' →
    d.hardwareTarget = d'.hardwareTarget → ¬(d.RunsAt t ∧ d'.RunsAt t)

/-! ## The layout of an instance -/

open List PyDict

/-! ### Delays -/

/-- The graph of a network. -/
abbrev NetArgs.graph (net : NetArgs) : DepGraph := buildDepGraph net.ir

/-- The tile of a dispatch. -/
def NetArgs.tile (net : NetArgs) (did : ℤ) : String := tileOf requantize (net.graph.kindOf did)

/-- How long a dispatch runs. -/
def NetArgs.duration (net : NetArgs) (did : ℤ) : ℚ := durationOf net.cycles did

theorem NetArgs.duration_nonneg (net : NetArgs) (did : ℤ) : 0 ≤ net.duration did :=
  div_nonneg (NNRat.cast_nonneg _) (by norm_num)

/-- The dispatch `v` is delayed by `w`: the longest chain of dispatches that run one after the other
before `v` takes this long, when each is a dependency of the next or comes before it on its tile,
the ready dispatch with the least id first. -/
def IsDelay (net : NetArgs) (v : ℤ) (w : ℚ) : Prop :=
  ∃ order, KahnLoop.Greedy (· ≤ ·) net.graph.depsOf net.graph.deps.keys order ∧
    order.Perm net.graph.deps.keys ∧
    IsGreatest {x | ListSchedule.Chain net.graph.depsOf net.tile net.duration order v x} w

variable {net : NetArgs} {j i : ℕ} {a : Args}

/-- A dispatch has one delay. -/
theorem IsDelay.unique {v : ℤ} {w w' : ℚ} (h : IsDelay net v w) (h' : IsDelay net v w') :
    w = w' := by
  obtain ⟨order, hgreedy, hperm, hw⟩ := h
  obtain ⟨order', hgreedy', hperm', hw'⟩ := h'
  have heq : order = order' := hgreedy.eq hgreedy' (hperm.length_eq.trans hperm'.length_eq.symm)
  exact hw.unique (heq ▸ hw')

/-! ### One instance -/

/-- What an instance looks like that is laid out with the starts `S`. -/
structure Laid (I : Instance) (out : PyDict String Dispatch) (S : ℤ → ℚ) : Prop where
  perm : (layoutOrder I.net.graph).Perm I.net.graph.deps.keys
  schedule : ListSchedule.Schedule (jobs I.net.graph I.net.cycles requantize I.offset)
    (fun _ => I.offset) (layoutOrder I.net.graph) S
  items : out.items = (layoutOrder I.net.graph).map fun did =>
    (opKey I.jobPrefix did, dispatchAt I.net.graph I.net.cycles requantize I.jobPrefix did (S did))

/-- The key of an op determines the instance's prefix and the dispatch. -/
theorem opKey_inj {p p' : String} {did did' : ℤ} (h : opKey p did = opKey p' did') :
    p = p' ∧ did = did' :=
  @Decimal.append_toString_inj _ _ "_dispatch" _ _ h

theorem topological_layoutOrder (g : DepGraph) :
    KahnLoop.Topological g.depsOf g.deps.keys (layoutOrder g) :=
  KahnLoop.topological_sort _ _ g.deps.keys_nodup

/-- The starts of a placed board are its items. -/
private theorem items_starts {J : ListSchedule.Jobs ℤ String ℚ} {free : String → ℚ} {order : List ℤ}
    {b : ListSchedule.Board ℤ String ℚ} {S : ℤ → ℚ} (h : ListSchedule.Placed J free order b S) :
    b.starts.items = order.map fun did => (did, S did) := by
  have hkeys : b.starts.items.map Prod.fst = order := h.keys
  rw [← hkeys, map_map]
  refine (map_id _).symm.trans (map_congr_left fun p hp => ?_)
  have hget := h.start p.1 (hkeys ▸ mem_map_of_mem hp)
  rw [← mem_items_iff] at hget
  have hval : p.2 = S p.1 :=
    Option.some.inj ((mem_items_iff.mp hp).symm.trans (mem_items_iff.mp hget))
  exact Prod.ext rfl hval

/-- An instance that is laid out has every dispatch once. -/
theorem exists_laid {I : Instance} {out : PyDict String Dispatch} (h : I.layout = .ok out) :
    ∃ S, Laid I out S := by
  rw [Instance.layout, topoLayout] at h
  split at h
  · cases h
  simp only at h
  split_ifs at h with hlen
  rw [not_not] at hlen
  have htop := topological_layoutOrder I.net.graph
  have hperm : (layoutOrder I.net.graph).Perm I.net.graph.deps.keys := by
    refine (htop.nodup.subperm htop.subset).perm_of_length_le ?_
    rw [hlen, PyDict.keys, length_map]
  obtain ⟨b, S, hrun, hplaced⟩ := @ListSchedule.exists_run _ _ _ _ _
    (jobs I.net.graph I.net.cycles requantize I.offset) _ _ (fun _ => I.offset) _ _ _ htop
  rw [hrun] at h
  cases h
  refine ⟨S, hperm, hplaced.schedule, ?_⟩
  rw [items_starts hplaced, map_map, items_ofList]
  · rfl
  · rw [map_map]
    exact htop.nodup.map fun d e hde => (opKey_inj hde).2

section Laid

variable {I : Instance} {out : PyDict String Dispatch} {S : ℤ → ℚ} (h : Laid I out S)

include h

variable {did : ℤ}

theorem Laid.mem_order : did ∈ layoutOrder I.net.graph ↔ did ∈ I.net.graph.deps.keys :=
  h.perm.mem_iff

/-- What the layout holds under the key of a dispatch. -/
theorem Laid.get?_opKey (hdid : did ∈ I.net.graph.deps.keys) :
    out.get? (opKey I.jobPrefix did) = some
      (dispatchAt I.net.graph I.net.cycles requantize I.jobPrefix did (S did)) := by
  rw [← mem_items_iff, h.items]
  exact mem_map_of_mem (h.mem_order.mpr hdid)

/-- The layout holds nothing else. -/
theorem Laid.exists_of_get? {k : String} {d : Dispatch} (hget : out.get? k = some d) :
    ∃ did ∈ I.net.graph.deps.keys, k = opKey I.jobPrefix did ∧
      d = dispatchAt I.net.graph I.net.cycles requantize I.jobPrefix did (S did) := by
  rw [← mem_items_iff, h.items] at hget
  obtain ⟨did, hdid, heq⟩ := mem_map.mp hget
  cases heq
  exact ⟨did, h.mem_order.mp hdid, rfl, rfl⟩

/-- A dispatch starts when its delay after the period boundary has passed. -/
theorem Laid.isDelay_start (hdid : did ∈ I.net.graph.deps.keys) :
    IsDelay I.net did (S did - I.offset) := by
  refine ⟨layoutOrder I.net.graph,
    KahnLoop.greedy_sort_least _ I.net.graph.deps.keys_nodup, h.perm, ?_⟩
  exact h.schedule.isGreatest_chain (fun _ _ => rfl) (topological_layoutOrder _)
    (fun k _ => I.net.duration_nonneg k) (h.mem_order.mpr hdid)

/-- No dispatch starts before the period boundary. -/
theorem Laid.offset_le (hdid : did ∈ I.net.graph.deps.keys) : I.offset ≤ S did := by
  obtain ⟨order, -, -, hgreatest⟩ := h.isDelay_start hdid
  have hle := hgreatest.2 (ListSchedule.Chain.start did)
  linarith

/-- The dispatches of one instance do not overlap on a tile. -/
theorem Laid.disjoint {u v : ℤ} (hu : u ∈ I.net.graph.deps.keys) (hv : v ∈ I.net.graph.deps.keys)
    (huv : u ≠ v) (htile : I.net.tile u = I.net.tile v) :
    S u + I.net.duration u ≤ S v ∨ S v + I.net.duration v ≤ S u :=
  h.schedule.disjoint (fun k _ => le_add_of_nonneg_right (I.net.duration_nonneg k))
    (h.mem_order.mpr hu) (h.mem_order.mpr hv) huv htile

end Laid

/-! ### The fixture -/

theorem toString_nat_inj (h : toString i = toString j) : i = j := by
  have hint : toString (i : ℤ) = toString (j : ℤ) := h
  exact Int.natCast_inj.mp (Decimal.toString_inj.mp hint)

/-- The instances of a network have different prefixes. -/
private theorem nodup_instancesOf_jobPrefixes {name : String} {suffix : ℕ → String}
    (h : ∀ i < net.instances.toNat, ∀ j < net.instances.toNat, suffix i = suffix j → i = j) :
    ((instancesOf net name suffix).map Instance.jobPrefix).Nodup := by
  rw [instancesOf, map_map]
  refine List.Nodup.map_on (fun i hi j hj heq => ?_) nodup_range
  have hlist := congrArg String.toList heq
  simp only [Function.comp_apply, String.toList_append, append_cancel_left_eq] at hlist
  exact h i (mem_range.mp hi) j (mem_range.mp hj) (String.toList_inj.mp hlist)

private theorem optionalSuffix_inj {n : ℤ} (hi : i < n.toNat) (hj : j < n.toNat)
    (h : optionalSuffix n i = optionalSuffix n j) : i = j := by
  rw [optionalSuffix, optionalSuffix] at h
  split_ifs at h with hn
  · omega
  · exact toString_nat_inj h

/-- The prefix of an instance begins with the name of the network. -/
private theorem head?_jobPrefix {net : NetArgs} {name : String} {suffix : ℕ → String} {c : Char}
    (hname : name.toList.head? = some c) {p : String}
    (hp : p ∈ (instancesOf net name suffix).map Instance.jobPrefix) :
    p.toList.head? = some c := by
  obtain ⟨I, hI, rfl⟩ := mem_map.mp hp
  obtain ⟨i, -, rfl⟩ := mem_map.mp hI
  rw [String.toList_append, head?_append, hname]
  rfl

/-- No two instances have one prefix. -/
theorem nodup_jobPrefixes (a : Args) : (a.allInstances.map Instance.jobPrefix).Nodup := by
  rw [Args.allInstances, map_append, map_append, nodup_append, nodup_append]
  have hy := @head?_jobPrefix a.yolov8n "yolov8_nano" (optionalSuffix a.yolov8n.instances) 'y' rfl
  have hd := @head?_jobPrefix a.dronet "dronet" (optionalSuffix a.dronet.instances) 'd' rfl
  have hm := @head?_jobPrefix a.mlp "mlp_control" toString 'm' rfl
  refine ⟨⟨nodup_instancesOf_jobPrefixes fun i hi j hj => optionalSuffix_inj hi hj,
    nodup_instancesOf_jobPrefixes fun i hi j hj => optionalSuffix_inj hi hj, ?_⟩,
    nodup_instancesOf_jobPrefixes fun i _ j _ => toString_nat_inj, ?_⟩
  · rintro p hp q hq rfl
    have := (hy hp).symm.trans (hd hq)
    simp at this
  · rintro p hp q hq rfl
    rcases mem_append.mp hp with hp | hp
    · have := (hy hp).symm.trans (hm hq)
      simp at this
    · have := (hd hp).symm.trans (hm hq)
      simp at this

/-- Two instances with one prefix are one. -/
theorem eq_of_jobPrefix_eq {I J : Instance} (hI : I ∈ a.allInstances) (hJ : J ∈ a.allInstances)
    (h : I.jobPrefix = J.jobPrefix) : I = J :=
  inj_on_of_nodup_map (nodup_jobPrefixes a) hI hJ h

/-- The fixture holds the layouts of the instances. -/
theorem exists_laid_of_generate {fx : PyDict String Dispatch} (h : generate a = .ok fx) :
    ∃ (S : Instance → ℤ → ℚ) (out : Instance → PyDict String Dispatch),
      (∀ I ∈ a.allInstances, Laid I (out I) (S I)) ∧
      ∀ k d, fx.get? k = some d ↔ ∃ I ∈ a.allInstances, (out I).get? k = some d := by
  rw [generate, Fallible.bind_eq_ok_iff] at h
  obtain ⟨layouts, hlayouts, h⟩ := h
  have hall : ∀ I, ∃ out S, I ∈ a.allInstances → I.layout = .ok out ∧ Laid I out S := by
    intro I
    by_cases hI : I ∈ a.allInstances
    · obtain ⟨out, -, hout⟩ := Fallible.exists_of_mapM_eq_ok hlayouts hI
      obtain ⟨S, hS⟩ := exists_laid hout
      exact ⟨out, S, fun _ => ⟨hout, hS⟩⟩
    · exact ⟨PyDict.empty, fun _ => 0, fun hmem => absurd hmem hI⟩
  choose out S hlaid using hall
  refine ⟨S, out, fun I hI => (hlaid I hI).2, fun k d => ?_⟩
  have hmap : layouts = a.allInstances.map out := by
    rw [Fallible.mapM_eq_ok_map fun I hI => (hlaid I hI).1] at hlayouts
    cases hlayouts
    rfl
  -- no key occurs in two layouts
  have hnd : ((layouts.flatMap PyDict.items).map Prod.fst).Nodup := by
    rw [hmap, flatMap_map, map_flatMap, nodup_flatMap]
    refine ⟨fun I _ => (out I).nodup, ?_⟩
    refine (pairwise_map.mp (nodup_jobPrefixes a)).imp_of_mem fun {I J} hI hJ hIJ => ?_
    intro k hkI hkJ
    obtain ⟨dI, hdI⟩ := mem_keys_iff.mp (show k ∈ (out I).keys from hkI)
    obtain ⟨dJ, hdJ⟩ := mem_keys_iff.mp (show k ∈ (out J).keys from hkJ)
    obtain ⟨u, -, hu, -⟩ := (hlaid I hI).2.exists_of_get? hdI
    obtain ⟨v, -, hv, -⟩ := (hlaid J hJ).2.exists_of_get? hdJ
    exact hIJ (opKey_inj (hu.symm.trans hv)).1
  have hfx : fx = PyDict.ofList (layouts.flatMap PyDict.items) := by
    simp only at h
    split_ifs at h with hempty
    cases h
    rfl
  rw [hfx, ← mem_items_iff, items_ofList hnd, hmap, mem_flatMap]
  simp only [mem_map, exists_exists_and_eq_and, mem_items_iff]

end ModelBlaster.ThreeWay

/-! ## When the three-network fixture is feasible -/

namespace ModelBlaster.ThreeWay

/-- The instances fit: a dispatch is delayed until its data dependencies have run, also those behind
the other inputs of a view, and dispatches of different instances on one tile, put off to the period
boundaries of their instances, are apart. -/
structure Fits (a : Args) : Prop where
  deps : ∀ I ∈ a.allInstances, ∀ v u wv wu, DataDep I.net.ir v u →
    IsDelay I.net v wv → IsDelay I.net u wu → wu + I.net.duration u ≤ wv
  tiles : ∀ I ∈ a.allInstances, ∀ J ∈ a.allInstances, I.jobPrefix ≠ J.jobPrefix →
    ∀ u ∈ I.net.graph.deps.keys, ∀ v ∈ J.net.graph.deps.keys, I.net.tile u = J.net.tile v →
      0 < I.net.duration u → 0 < J.net.duration v → ∀ wu wv, IsDelay I.net u wu →
        IsDelay J.net v wv →
        I.offset + wu + I.net.duration u ≤ J.offset + wv ∨
          J.offset + wv + J.net.duration v ≤ I.offset + wu

/-! ### Dispatches -/

variable {ops : List Op} {t : String}

/-- The dispatches of a graph are those of its ops. -/
theorem mem_keys_deps {did : ℤ} :
    did ∈ (buildDepGraph ops).deps.keys ↔ ∃ op ∈ ops, op.dispatchId = some did := by
  rw [buildDepGraph, PyDict.mem_keys_ofList, List.map_filterMap]
  simp

theorem mem_of_producerOf {op : Op} (h : producerOf ops t = some op) : op ∈ ops := by
  obtain ⟨i, -, hi⟩ := Option.bind_eq_some_iff.mp h
  exact List.mem_of_getElem? hi

/-- What a tensor comes from is a dispatch. -/
theorem Source.mem_keys {u : ℤ} (h : Source ops t u) :
    u ∈ (buildDepGraph ops).deps.keys := by
  induction h with
  | dispatch hop hdid => exact mem_keys_deps.mpr ⟨_, mem_of_producerOf hop, hdid⟩
  | view _ _ _ _ ih => exact ih

theorem DataDep.mem_keys {v u : ℤ} (h : DataDep ops v u) :
    v ∈ (buildDepGraph ops).deps.keys ∧ u ∈ (buildDepGraph ops).deps.keys := by
  obtain ⟨-, op, hop, hdid, t, -, hsource⟩ := h
  exact ⟨mem_keys_deps.mpr ⟨op, hop, hdid⟩, hsource.mem_keys⟩

/-! ### The condition -/

/-- Two ops that take time are never run at once iff one ends before the other starts. -/
theorem not_runsAt_iff {d d' : Dispatch} (hd : 0 < d.duration) (hd' : 0 < d'.duration) :
    (∀ t, ¬(d.RunsAt t ∧ d'.RunsAt t)) ↔ d.stop ≤ d'.startTime ∨ d'.stop ≤ d.startTime := by
  simp only [Dispatch.RunsAt, Dispatch.stop]
  constructor
  · intro h
    by_contra hmeet
    rw [not_or, not_le, not_le] at hmeet
    refine h (max d.startTime d'.startTime) ⟨⟨le_max_left _ _, ?_⟩, le_max_right _ _, ?_⟩
    · exact max_lt (by linarith) hmeet.1
    · exact max_lt hmeet.2 (by linarith)
  · rintro (h | h) t ⟨⟨h₁, h₂⟩, h₃, h₄⟩ <;> linarith

section Condition

variable {a : Args} {fx : PyDict String Dispatch} {S : Instance → ℤ → ℚ}
  {out : Instance → PyDict String Dispatch}
  (hlaid : ∀ I ∈ a.allInstances, Laid I (out I) (S I))
  (hfx : ∀ k d, fx.get? k = some d ↔ ∃ I ∈ a.allInstances, (out I).get? k = some d)

include hlaid hfx

/-- The op of an instance in the fixture. -/
theorem get?_fixture {I : Instance} (hI : I ∈ a.allInstances) {did : ℤ}
    (hdid : did ∈ I.net.graph.deps.keys) :
    fx.get? (opKey I.jobPrefix did) = some
      (dispatchAt I.net.graph I.net.cycles requantize I.jobPrefix did (S I did)) :=
  (hfx _ _).mpr ⟨I, hI, (hlaid I hI).get?_opKey hdid⟩

/-- An op that the fixture holds is one of an instance. -/
theorem exists_of_get?_fixture {k : String} {d : Dispatch} (h : fx.get? k = some d) :
    ∃ I ∈ a.allInstances, ∃ did ∈ I.net.graph.deps.keys, k = opKey I.jobPrefix did ∧
      d = dispatchAt I.net.graph I.net.cycles requantize I.jobPrefix did (S I did) := by
  obtain ⟨I, hI, hget⟩ := (hfx k d).mp h
  exact ⟨I, hI, (hlaid I hI).exists_of_get? hget⟩

/-- A feasible fixture is made of instances that fit. -/
theorem Feasible.fits (h : Feasible a fx) : Fits a where
  deps := by
    intro I hI v u wv wu hdep hv hu
    obtain ⟨hkv, hku⟩ := hdep.mem_keys
    rw [hv.unique ((hlaid I hI).isDelay_start hkv), hu.unique ((hlaid I hI).isDelay_start hku)]
    have hend := h.dep_end_le I hI v u _ _ hdep (get?_fixture hlaid hfx hI hkv)
      (get?_fixture hlaid hfx hI hku)
    have hend' : S I u + I.net.duration u ≤ S I v := hend
    linarith
  tiles := by
    intro I hI J hJ hIJ u hu v hv htile hposu hposv wu wv hwu hwv
    rw [hwu.unique ((hlaid I hI).isDelay_start hu), hwv.unique ((hlaid J hJ).isDelay_start hv)]
    have hne : opKey I.jobPrefix u ≠ opKey J.jobPrefix v := fun heq => hIJ (opKey_inj heq).1
    have happart := (not_runsAt_iff hposu hposv).mp fun t =>
      h.exclusive t _ _ _ _ (get?_fixture hlaid hfx hI hu) (get?_fixture hlaid hfx hJ hv) hne htile
    have happart' : S I u + I.net.duration u ≤ S J v ∨ S J v + J.net.duration v ≤ S I u := happart
    rw [add_sub_cancel, add_sub_cancel]
    exact happart'

/-- Instances that fit make a feasible fixture. -/
theorem Fits.feasible (h : Fits a) : Feasible a fx where
  complete := by
    intro I hI op hop did hdid
    have hkey : did ∈ I.net.graph.deps.keys := mem_keys_deps.mpr ⟨op, hop, hdid⟩
    exact ⟨_, get?_fixture hlaid hfx hI hkey, (hlaid I hI).offset_le hkey⟩
  dep_end_le := by
    intro I hI v u dv du hdep hgetv hgetu
    obtain ⟨hkv, hku⟩ := hdep.mem_keys
    rw [get?_fixture hlaid hfx hI hkv, Option.some.injEq] at hgetv
    rw [get?_fixture hlaid hfx hI hku, Option.some.injEq] at hgetu
    subst hgetv hgetu
    have hle := h.deps I hI v u _ _ hdep ((hlaid I hI).isDelay_start hkv)
      ((hlaid I hI).isDelay_start hku)
    show S I u + I.net.duration u ≤ S I v
    linarith
  exclusive := by
    intro t k k' d d' hk hk' hne htile
    obtain ⟨I, hI, u, hu, rfl, rfl⟩ := exists_of_get?_fixture hlaid hfx hk
    obtain ⟨J, hJ, v, hv, rfl, rfl⟩ := exists_of_get?_fixture hlaid hfx hk'
    rintro ⟨hrun, hrun'⟩
    have hposu : 0 < I.net.duration u := by
      have := hrun.1.trans_lt hrun.2
      exact pos_of_lt_add_right this
    have hposv : 0 < J.net.duration v := by
      have := hrun'.1.trans_lt hrun'.2
      exact pos_of_lt_add_right this
    refine (not_runsAt_iff hposu hposv).mpr ?_ t ⟨hrun, hrun'⟩
    by_cases hIJ : I.jobPrefix = J.jobPrefix
    · -- within an instance the layout keeps the tile free
      obtain rfl := eq_of_jobPrefix_eq hI hJ hIJ
      have huv : u ≠ v := fun heq => hne (by rw [heq])
      exact (hlaid I hI).disjoint hu hv huv htile
    · have happart := h.tiles I hI J hJ hIJ u hu v hv htile hposu hposv _ _
        ((hlaid I hI).isDelay_start hu) ((hlaid J hJ).isDelay_start hv)
      rw [add_sub_cancel, add_sub_cancel] at happart
      exact happart

end Condition

/-- The fixture that is written is feasible iff the instances fit. -/
theorem feasible_iff {a : Args} {fx : PyDict String Dispatch} (h : generate a = .ok fx) :
    Feasible a fx ↔ Fits a := by
  obtain ⟨S, out, hlaid, hfx⟩ := exists_laid_of_generate h
  exact ⟨fun hfeasible => hfeasible.fits hlaid hfx, fun hfits => hfits.feasible hlaid hfx⟩

/-! ### Fixtures that are not feasible -/

/-- A network of one linear op. -/
def oneLinear : NetArgs where
  ir := [⟨some 0, "linear", ["x"], ["y"]⟩]
  cycles := PyDict.empty
  instances := 1
  periodMs := 0

/-- A network without ops. -/
def noOps : NetArgs := ⟨[], PyDict.empty, 1, 0⟩

/-- A network whose last op reads two tensors through a view. -/
def viewOfTwo : NetArgs where
  ir := [⟨some 0, "add", ["x"], ["s"]⟩, ⟨some 1, "linear", ["x"], ["t"]⟩,
    ⟨none, "cat", ["s", "t"], ["u"]⟩, ⟨some 2, "relu", ["u"], ["y"]⟩]
  cycles := PyDict.ofList [(0, 1000), (1, 1000000), (2, 1000)]
  instances := 1
  periodMs := 0

/-- The fixture of the first network alone. -/
theorem generate_oneLinear : (generate ⟨oneLinear, noOps, noOps⟩).isOk = true := by decide +kernel

theorem feasible_iff_oneLinear : ∃ fx, generate ⟨oneLinear, noOps, noOps⟩ = .ok fx ∧
    (Feasible ⟨oneLinear, noOps, noOps⟩ fx ↔ Fits ⟨oneLinear, noOps, noOps⟩) := by
  obtain ⟨fx, h⟩ := Fallible.exists_of_isOk generate_oneLinear
  exact ⟨fx, h, feasible_iff h⟩

/-- An op of the fixture, if one is written. -/
def opOf (a : Args) (k : String) : Option Dispatch := (generate a).toOption.bind fun fx => fx.get? k

theorem get?_of_opOf {a : Args} {fx : PyDict String Dispatch} {k : String} {d : Dispatch}
    (h : generate a = .ok fx) (hop : opOf a k = some d) : fx.get? k = some d := by
  rw [opOf, h] at hop
  exact hop

/-- Two networks that begin together meet on a tile; and an op that reads two tensors through a view
starts before the second is made. -/
theorem not_feasible :
    (∃ fx, generate ⟨oneLinear, oneLinear, noOps⟩ = .ok fx ∧
      ¬Feasible ⟨oneLinear, oneLinear, noOps⟩ fx) ∧
    ∃ fx, generate ⟨viewOfTwo, noOps, noOps⟩ = .ok fx ∧ ¬Feasible ⟨viewOfTwo, noOps, noOps⟩ fx := by
  constructor
  · obtain ⟨fx, h⟩ := Fallible.exists_of_isOk
      (show (generate ⟨oneLinear, oneLinear, noOps⟩).isOk = true by decide +kernel)
    refine ⟨fx, h, fun hfeasible => ?_⟩
    have hy := get?_of_opOf h (show opOf ⟨oneLinear, oneLinear, noOps⟩ "yolov8_nano_dispatch_0" =
      some ⟨0, 1, 1, [], "CPU_P#0", 0, 1 / 1000, "yolov8_nano", "yolov8_nano$dispatch_0_linear"⟩ by
        decide +kernel)
    have hd := get?_of_opOf h (show opOf ⟨oneLinear, oneLinear, noOps⟩ "dronet_dispatch_0" =
      some ⟨0, 1, 1, [], "CPU_P#0", 0, 1 / 1000, "dronet", "dronet$dispatch_0_linear"⟩ by
        decide +kernel)
    refine hfeasible.exclusive 0 _ _ _ _ hy hd (by decide) rfl ?_
    simp only [Dispatch.RunsAt, Dispatch.stop]
    norm_num
  · obtain ⟨fx, h⟩ := Fallible.exists_of_isOk
      (show (generate ⟨viewOfTwo, noOps, noOps⟩).isOk = true by decide +kernel)
    refine ⟨fx, h, fun hfeasible => ?_⟩
    have hu := get?_of_opOf h (show opOf ⟨viewOfTwo, noOps, noOps⟩ "yolov8_nano_dispatch_1" =
      some ⟨1, 1, 1, [], "CPU_P#0", 0, 1, "yolov8_nano", "yolov8_nano$dispatch_1_linear"⟩ by
        decide +kernel)
    have hv := get?_of_opOf h (show opOf ⟨viewOfTwo, noOps, noOps⟩ "yolov8_nano_dispatch_2" =
      some ⟨2, 1, 1, ["yolov8_nano_dispatch_0"], "CPU_E#0", 1 / 1000, 1 / 1000, "yolov8_nano",
        "yolov8_nano$dispatch_2_relu"⟩ by decide +kernel)
    have hdep : DataDep viewOfTwo.ir 2 1 := by
      refine ⟨by decide, ⟨some 2, "relu", ["u"], ["y"]⟩, by decide, rfl, "u", by decide, ?_⟩
      refine @Source.view _ "u" "t" ⟨none, "cat", ["s", "t"], ["u"]⟩ 1 (by decide) rfl
        (by decide) ?_
      exact @Source.dispatch _ "t" ⟨some 1, "linear", ["x"], ["t"]⟩ 1 (by decide) rfl
    have hend := hfeasible.dep_end_le ⟨viewOfTwo, (0 : ℕ) * 0, "yolov8_nano" ++ ""⟩ (by
      simp [Args.allInstances, instancesOf, viewOfTwo, optionalSuffix]) 2 1 _ _ hdep hv hu
    simp only [Dispatch.stop] at hend
    norm_num at hend

end ModelBlaster.ThreeWay
