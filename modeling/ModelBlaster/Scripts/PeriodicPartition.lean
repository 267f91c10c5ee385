import ModelBlaster.Library.PyStr
import ModelBlaster.Library.ListSchedule

/-!
# Periodic partitions

`scripts/periodic_partition_schedule.py` repeats the schedule of one instance of every network in
the time slots of a horizon. The ops of all instances are candidates; they are sorted by slot and by
their start in the schedule of one instance, and a queue places each as early as its slot, its
dependencies and its tile allow. A candidate whose dependencies are not placed goes to the end of
the queue, and the queue is given up after five times as many steps as there are candidates.

The schedule of one instance comes from a solver outside the repository. Here it is a parameter.

## Main definitions

* `Config`, `Template`: the configuration, and the schedule of one instance;
* `candidates`: the ops to place;
* `asapLoop`: the queue;
* `asapPass`: the pass with its deadline count;
* `FeasibleTemplate`: a schedule of one instance that respects its dependencies;
* `jobs`: the candidates as jobs;
* `lateInstances`: how many instances have an op that ends a given time after the slot;
* `Packed`: what the pass leaves behind.

## Main results

* `nodup_key_candidates`: no two candidates have one key;
* `deps_before`: in the sorted queue a candidate is behind those it waits for;
* `asapLoop_eq`: the loop places all candidates of such a queue;
* `asap_sound`: the pass packs the candidates and counts the late instances;
* `deadlineMisses_ne_late`: the count differs from the instances that end after their slots.
-/

namespace ModelBlaster.PeriodicPartition

/-! ### Configuration -/

/-- An op in the schedule of one instance. -/
structure TemplateOp where
  opType : String
  opName : String
  /-- The tile. -/
  machine : String
  startOffset : ℚ
  duration : ℚ
  /-- Dispatch ids of the ops it waits for. -/
  deps : List ℤ
deriving DecidableEq, Repr

/-- The schedule of one instance, by dispatch id. -/
abbrev Template := PyDict ℤ TemplateOp

/-- A network of the configuration. -/
structure NetCfg where
  name : String
  quant : String
  /-- How many instances, if given. -/
  instances : Option ℤ
deriving DecidableEq, Repr

/-- What the pass reads of the configuration. -/
structure Config where
  horizonMs : ℚ
  networks : List NetCfg

/-- `template`: what the solver returns for every network, by name. -/
def templates (solve : NetCfg → Template) (cfg : Config) : PyDict String Template :=
  PyDict.ofList (cfg.networks.map fun net => (net.name, solve net))

/-- `n_inst` -/
def NetCfg.nInst (net : NetCfg) : ℤ := net.instances.getD 1

/-- `horizon / max(n_inst, 1)` -/
def slotLen (horizon : ℚ) (nInst : ℤ) : ℚ := horizon / (max nInst 1 : ℤ)

/-! ### Candidates -/

/-- `f"{net}#{inst}"` -/
def instanceKey (net : String) (inst : ℕ) : String := net ++ "#" ++ toString inst

/-- `f"{net}#{inst}_dispatch_{did}"` -/
def opKey (net : String) (inst : ℕ) (did : ℤ) : String :=
  instanceKey net inst ++ "_dispatch_" ++ toString did

/-- An op of an instance. -/
structure Candidate where
  network : String
  inst : ℕ
  did : ℤ
  opName : String
  opType : String
  machine : String
  duration : ℚ
  /-- Keys of the ops it waits for. -/
  deps : List String
  tentativeStartOffset : ℚ
  slotStart : ℚ
  slotEnd : ℚ
deriving DecidableEq, Repr

/-- `c["key"]` -/
def Candidate.key (c : Candidate) : String := opKey c.network c.inst c.did

/-- The candidate that an op of a schedule gives in a slot. -/
def candidate (net : String) (len : ℚ) (inst : ℕ) (did : ℤ) (t : TemplateOp) : Candidate where
  network := net
  inst := inst
  did := did
  opName := t.opName
  opType := t.opType
  machine := t.machine
  duration := t.duration
  deps := t.deps.map (opKey net inst)
  tentativeStartOffset := t.startOffset
  slotStart := inst * len
  slotEnd := (inst + 1) * len

/-- The schedule of a network; the one of the last entry with its name. -/
def templateOf (T : PyDict String Template) (net : NetCfg) : Template :=
  (T.get? net.name).getD PyDict.empty

/-- `candidates`, in the order in which they are made. -/
def candidates (T : PyDict String Template) (cfg : Config) : List Candidate :=
  cfg.networks.flatMap fun net =>
    (List.range net.nInst.toNat).flatMap fun inst =>
      (templateOf T net).items.map fun item =>
        candidate net.name (slotLen cfg.horizonMs net.nInst) inst item.1 item.2

/-- An entry of `instance_meta`. -/
structure Instance where
  network : String
  inst : ℕ
  jobId : ℕ
  nDispatches : ℕ
deriving DecidableEq, Repr

/-- `instance_meta` -/
def instances (T : PyDict String Template) (cfg : Config) : List Instance :=
  let pairs := cfg.networks.flatMap fun net =>
    (List.range net.nInst.toNat).map fun inst => (net, inst)
  pairs.zipIdx.map fun p => ⟨p.1.1.name, p.1.2, p.2, (templateOf T p.1.1).items.length⟩

/-- `candidates.sort(key=lambda c: (c["slot_start"], c["tentative_start_offset"]))` -/
def sortCandidates (cs : List Candidate) : List Candidate :=
  cs.insertionSort fun a b =>
    toLex (a.slotStart, a.tentativeStartOffset) ≤ toLex (b.slotStart, b.tentativeStartOffset)

/-! ### The queue -/

/-- An op of the schedule. -/
structure Dispatch where
  id : ℤ
  jobName : String
  moduleName : String
  hardwareTarget : String
  startTime : ℚ
  duration : ℚ
  op : String
  dependencies : List String
deriving DecidableEq, Repr

/-- When an op ends. -/
def Dispatch.stop (d : Dispatch) : ℚ := d.startTime + d.duration

/-- The op that a candidate becomes. -/
def Candidate.dispatch (c : Candidate) (start : ℚ) : Dispatch where
  id := c.did
  jobName := c.network ++ toString c.inst
  moduleName := c.opName
  hardwareTarget := c.machine
  startTime := start
  duration := c.duration
  op := c.opType
  dependencies := c.deps

/-- What the queue loop carries. -/
structure State where
  endTimes : PyDict String ℚ
  tileFreeAt : String → ℚ
  dispatches : PyDict String Dispatch

/-- Before the loop. -/
def State.init : State := ⟨PyDict.empty, fun _ => 0, PyDict.empty⟩

/-- Place a candidate whose dependencies are placed. -/
def asapPlace (st : State) (c : Candidate) : State :=
  let depEnd := ListSchedule.latest 0 (c.deps.filterMap st.endTimes.get?)
  let start := max (max c.slotStart depEnd) (st.tileFreeAt c.machine)
  let stop := start + c.duration
  { endTimes := st.endTimes.set c.key stop
    tileFreeAt := Function.update st.tileFreeAt c.machine stop
    dispatches := st.dispatches.set c.key (c.dispatch start) }

/-- The queue loop, with the steps it may still make. Returns the candidates that are not
placed. -/
def asapLoop : ℕ → List Candidate → State → List Candidate × State
  | _, [], st => ([], st)
  | 0, queue, st => (queue, st)
  | steps + 1, c :: queue, st =>
    if c.deps.any fun d => (st.endTimes.get? d).isNone then asapLoop steps (queue ++ [c]) st
    else asapLoop steps queue (asapPlace st c)

/-! ### Deadlines -/

/-- Whether an instance ends after its slot: the last of the ops whose keys begin as those of the
instance. -/
def misses (horizon : ℚ) (insts : List Instance) (dispatches : PyDict String Dispatch)
    (ins : Instance) : Bool :=
  let start := instanceKey ins.network ins.inst ++ "_"
  let ends := (dispatches.items.filter fun item =>
    start.toList.isPrefixOf item.1.toList).map fun item => item.2.stop
  let nInstNet := insts.countP fun j => j.network = ins.network
  let slotEnd := (ins.inst + 1) * slotLen horizon nInstNet
  ends.max?.any fun instEnd => slotEnd + 1 / 1000000 < instEnd

/-- What the pass leaves behind. -/
structure Pass where
  /-- The candidates that are not placed. -/
  queue : List Candidate
  dispatches : PyDict String Dispatch
  instanceMeta : List Instance
  deadlineMisses : ℕ

/-- The candidates are placed, and the instances counted that end after their slots. -/
def asapPass (solve : NetCfg → Template) (cfg : Config) : Pass :=
  let T := templates solve cfg
  let queue := sortCandidates (candidates T cfg)
  let out := asapLoop (queue.length * 5) queue State.init
  let insts := instances T cfg
  { queue := out.1
    dispatches := out.2.dispatches
    instanceMeta := insts
    deadlineMisses := insts.countP (misses cfg.horizonMs insts out.2.dispatches) }

/-! ## The queue of the periodic pass -/

open List

/-! ### Keys -/

theorem hash_notMem_toString (n : ℕ) : '#' ∉ (toString n).toList :=
  Decimal.notMem_toString_nat rfl n

variable {inst' inst : ℕ} {net' net : String} {did : ℤ}

/-- The key of an instance determines it. -/
theorem instanceKey_inj (h : instanceKey net inst = instanceKey net' inst') :
    net = net' ∧ inst = inst' := by
  have hlist := congrArg String.toList h
  simp only [instanceKey, String.toList_append] at hlist
  have hsplit : net.toList ++ '#' :: (toString inst).toList =
      net'.toList ++ '#' :: (toString inst').toList := by simpa using hlist
  obtain ⟨hnet, hinst⟩ := Decimal.append_cons_inj (hash_notMem_toString inst)
    (hash_notMem_toString inst') hsplit
  refine ⟨String.toList_inj.mp hnet, ?_⟩
  have hint : toString (inst : ℤ) = toString (inst' : ℤ) := String.toList_inj.mp hinst
  exact Int.natCast_inj.mp (Decimal.toString_inj.mp hint)

/-- The key of an op determines it. -/
theorem opKey_inj {did' : ℤ} (h : opKey net inst did = opKey net' inst' did') :
    net = net' ∧ inst = inst' ∧ did = did' := by
  obtain ⟨hinst, hdid⟩ := @Decimal.append_toString_inj _ _ "_dispatch" _ _ h
  obtain ⟨hnet, hinst⟩ := instanceKey_inj hinst
  exact ⟨hnet, hinst, hdid⟩

/-- In a network whose name has no `#`, the keys that begin with that of an instance are those of
its ops. -/
theorem isPrefixOf_opKey_iff (hnet : '#' ∉ net.toList) (hnet' : '#' ∉ net'.toList) :
    (instanceKey net inst ++ "_").toList.isPrefixOf (opKey net' inst' did).toList = true ↔
      net = net' ∧ inst = inst' := by
  have hdispatch : ("_dispatch_" : String).toList = '_' :: "dispatch_".toList := rfl
  rw [List.isPrefixOf_iff_prefix]
  constructor
  · rintro ⟨rest, hrest⟩
    simp only [opKey, instanceKey, String.toList_append, hdispatch] at hrest
    have hsplit : net.toList ++ '#' :: ((toString inst).toList ++ '_' :: rest) =
        net'.toList ++ '#' :: ((toString inst').toList ++
          '_' :: ("dispatch_".toList ++ (toString did).toList)) := by simpa using hrest
    obtain ⟨heq, htail⟩ := Decimal.append_cons_inj_left hnet hnet' hsplit
    obtain ⟨hinst, -⟩ := Decimal.append_cons_inj_left
      (Decimal.notMem_toString_nat rfl inst) (Decimal.notMem_toString_nat rfl inst') htail
    have hint : toString (inst : ℤ) = toString (inst' : ℤ) := String.toList_inj.mp hinst
    exact ⟨String.toList_inj.mp heq, Int.natCast_inj.mp (Decimal.toString_inj.mp hint)⟩
  · rintro ⟨rfl, rfl⟩
    refine ⟨"dispatch_".toList ++ (toString did).toList, ?_⟩
    simp [opKey, String.toList_append, hdispatch]

/-! ### Candidates -/

/-- A schedule of one instance that respects its dependencies, with positive durations. -/
structure FeasibleTemplate (t : Template) : Prop where
  duration_pos : ∀ item ∈ t.items, 0 < item.2.duration
  dep_end_le : ∀ item ∈ t.items, ∀ dep ∈ item.2.deps, ∃ other ∈ t.items,
    other.1 = dep ∧ other.2.startOffset + other.2.duration ≤ item.2.startOffset

section Candidates

variable {T : PyDict String Template} {cfg : Config} {c : Candidate}

/-- A candidate is an op of an instance of a network. -/
theorem mem_candidates :
    c ∈ candidates T cfg ↔ ∃ net ∈ cfg.networks, ∃ inst < net.nInst.toNat,
      ∃ item ∈ (templateOf T net).items,
        c = candidate net.name (slotLen cfg.horizonMs net.nInst) inst item.1 item.2 := by
  simp only [candidates, mem_flatMap, mem_map, mem_range, eq_comm]

/-- No two candidates have one key. -/
theorem nodup_key_candidates (hnames : (cfg.networks.map NetCfg.name).Nodup) :
    ((candidates T cfg).map Candidate.key).Nodup := by
  have hkeys : (candidates T cfg).map Candidate.key = cfg.networks.flatMap fun net =>
      (List.range net.nInst.toNat).flatMap fun inst =>
        (templateOf T net).keys.map (opKey net.name inst) := by
    simp only [candidates, PyDict.keys, map_flatMap, map_map]
    rfl
  rw [hkeys, nodup_flatMap]
  constructor
  · intro net _
    rw [nodup_flatMap]
    constructor
    · intro inst _
      exact (templateOf T net).keys_nodup.map fun d e hde => (opKey_inj hde).2.2
    · refine nodup_range.imp fun {i j} hij => ?_
      intro k hi hj
      obtain ⟨d, -, rfl⟩ := mem_map.mp hi
      obtain ⟨e, -, heq⟩ := mem_map.mp hj
      exact hij (opKey_inj heq).2.1.symm
  · refine (pairwise_map.mp hnames).imp fun {a b} hab => ?_
    intro k ha hb
    obtain ⟨i, -, hi⟩ := mem_flatMap.mp ha
    obtain ⟨j, -, hj⟩ := mem_flatMap.mp hb
    obtain ⟨d, -, rfl⟩ := mem_map.mp hi
    obtain ⟨e, -, heq⟩ := mem_map.mp hj
    exact hab (opKey_inj heq).1.symm

variable (hT : ∀ net ∈ cfg.networks, FeasibleTemplate (templateOf T net))

include hT

/-- Every candidate runs for some time. -/
theorem duration_pos_of_mem (hc : c ∈ candidates T cfg) : 0 < c.duration := by
  obtain ⟨net, hnet, inst, -, item, hitem, rfl⟩ := mem_candidates.mp hc
  exact (hT net hnet).duration_pos item hitem

/-- A candidate waits for candidates of its slot that start before it. -/
theorem exists_dep (hc : c ∈ candidates T cfg) {d : String} (hd : d ∈ c.deps) :
    ∃ e ∈ candidates T cfg, e.key = d ∧ e.slotStart = c.slotStart ∧
      e.tentativeStartOffset < c.tentativeStartOffset := by
  obtain ⟨net, hnet, inst, hinst, item, hitem, rfl⟩ := mem_candidates.mp hc
  obtain ⟨dep, hdep, rfl⟩ := mem_map.mp hd
  obtain ⟨other, hother, rfl, hle⟩ := (hT net hnet).dep_end_le item hitem dep hdep
  have hpos := (hT net hnet).duration_pos other hother
  exact ⟨_, mem_candidates.mpr ⟨net, hnet, inst, hinst, other, hother, rfl⟩, rfl, rfl,
    (lt_add_of_pos_right _ hpos).trans_le hle⟩

/-- In the sorted queue a candidate is behind those it waits for. -/
theorem deps_before {l₁ l₂ : List Candidate}
    (hsplit : l₁ ++ c :: l₂ = sortCandidates (candidates T cfg)) :
    ∀ d ∈ c.deps, d ∈ l₁.map Candidate.key := by
  intro d hd
  have hperm : (sortCandidates (candidates T cfg)).Perm (candidates T cfg) := perm_insertionSort _ _
  have hc : c ∈ candidates T cfg := hperm.subset (by simp [← hsplit])
  obtain ⟨e, he, rfl, hslot, hlt⟩ := exists_dep hT hc hd
  have hsorted : (sortCandidates (candidates T cfg)).Pairwise fun a b =>
      toLex (a.slotStart, a.tentativeStartOffset) ≤ toLex (b.slotStart, b.tentativeStartOffset) :=
    pairwise_insertionSort _ _
  have hmem : e ∈ l₁ ++ c :: l₂ := hsplit ▸ hperm.symm.subset he
  rcases mem_append.mp hmem with hbefore | hafter
  · exact mem_map_of_mem hbefore
  · -- a candidate of the slot from `c` on starts no earlier
    rw [← hsplit, pairwise_append, pairwise_cons] at hsorted
    have hle : toLex (c.slotStart, c.tentativeStartOffset) ≤
        toLex (e.slotStart, e.tentativeStartOffset) := by
      rcases mem_cons.mp hafter with rfl | hafter
      · exact le_rfl
      · exact hsorted.2.1.1 e hafter
    refine absurd hle (not_le.mpr (Prod.Lex.toLex_lt_toLex.mpr (Or.inr ⟨hslot, hlt⟩)))

end Candidates

/-! ### The loop -/

section Loop

variable {cs : List Candidate}

/-- The candidate with a key. -/
def find (cs : List Candidate) (k : String) : Option Candidate := cs.find? fun c => c.key = k

theorem find_key (hnd : (cs.map Candidate.key).Nodup) {c : Candidate} (hc : c ∈ cs) :
    find cs c.key = some c := by
  obtain ⟨l₁, l₂, rfl⟩ := append_of_mem hc
  have hfirst : ∀ a ∈ l₁, a.key ≠ c.key := by
    rw [map_append, nodup_append] at hnd
    exact fun a ha => hnd.2.2 a.key (mem_map_of_mem ha) c.key (by simp)
  rw [find, find?_append, find?_eq_none.mpr (by simpa using hfirst)]
  simp

/-- The candidates as jobs. -/
def jobs (cs : List Candidate) : ListSchedule.Jobs String String ℚ where
  deps k := (find cs k).elim [] Candidate.deps
  tile k := (find cs k).elim "" Candidate.machine
  duration k := (find cs k).elim 0 Candidate.duration
  lower k ends := max ((find cs k).elim 0 Candidate.slotStart) (ListSchedule.latest 0 ends)
  le_lower _ _ _ h := (ListSchedule.le_latest h).trans (le_max_right _ _)

section Lookup

variable {k : String} {c : Candidate} (h : find cs k = some c)

include h

theorem jobs_deps : (jobs cs).deps k = c.deps := by simp [jobs, h]

theorem jobs_tile : (jobs cs).tile k = c.machine := by simp [jobs, h]

theorem jobs_duration : (jobs cs).duration k = c.duration := by simp [jobs, h]

theorem jobs_lower (ends : List ℚ) :
    (jobs cs).lower k ends = max c.slotStart (ListSchedule.latest 0 ends) := by simp [jobs, h]

end Lookup

/-- What the loop has done when it has placed `done`. -/
structure Inv (cs done : List Candidate) (st : State) (S : String → ℚ) : Prop where
  placed : ∃ b, ListSchedule.Placed (jobs cs) (fun _ => 0) (done.map Candidate.key) b S ∧
    st.endTimes = b.ends ∧ st.tileFreeAt = b.free
  dispatches : st.dispatches.items = done.map fun c => (c.key, c.dispatch (S c.key))

/-- Placing a candidate whose dependencies are placed. -/
theorem Inv.place (hnd : (cs.map Candidate.key).Nodup) {done rest : List Candidate} {c : Candidate}
    (hsplit : done ++ c :: rest = cs)
    (hdeps : ∀ l₁ a l₂, l₁ ++ a :: l₂ = cs → ∀ d ∈ a.deps, d ∈ l₁.map Candidate.key) {st : State}
    {S : String → ℚ} (h : Inv cs done st S) :
    (∀ d ∈ c.deps, (st.endTimes.get? d).isNone = false) ∧
      ∃ S', Inv cs (done ++ [c]) (asapPlace st c) S' := by
  obtain ⟨b, hb, hends, hfree⟩ := h.placed
  have hc : find cs c.key = some c := find_key hnd (by simp [← hsplit])
  have hnew : c.key ∉ done.map Candidate.key := by
    rw [← hsplit, map_append, nodup_append] at hnd
    exact fun hmem => hnd.2.2 c.key hmem c.key (by simp) rfl
  have hcdeps : ∀ d ∈ c.deps, d ∈ done.map Candidate.key := hdeps done c rest hsplit
  have hstop : ∀ d ∈ c.deps, st.endTimes.get? d = some ((jobs cs).stop S d) := fun d hd => by
    rw [hends]
    exact hb.stop d (hcdeps d hd)
  refine ⟨fun d hd => by rw [hstop d hd]; rfl, ?_⟩
  have hclosed : ∀ k ∈ done.map Candidate.key, ∀ d ∈ (jobs cs).deps k,
      d ∈ done.map Candidate.key := by
    intro k hk d hd
    obtain ⟨a, ha, rfl⟩ := mem_map.mp hk
    obtain ⟨l₁, l₂, rfl⟩ := append_of_mem ha
    have ha' : find cs a.key = some a := find_key hnd (by simp [← hsplit])
    rw [jobs_deps ha'] at hd
    rw [map_append]
    exact mem_append_left _ (hdeps l₁ a (l₂ ++ c :: rest) (by simpa using hsplit) d hd)
  obtain ⟨b', S', hplace, hb'⟩ := hb.place hnew (by rwa [jobs_deps hc]) hclosed
  -- both loops read the same ends
  have hread : c.deps.filterMap st.endTimes.get? = c.deps.map ((jobs cs).stop S) := by
    rw [filterMap_congr hstop, filterMap_eq_map']
  obtain ⟨ends, hmapM, rfl⟩ := ListSchedule.place_eq_ok_iff.mp hplace
  have hok : c.deps.mapM (fun d => (b.ends.get? d).elim (.error d) Except.ok) =
      .ok (c.deps.map ((jobs cs).stop S)) :=
    Fallible.mapM_eq_ok_map fun d hd => by rw [← hends, hstop d hd]; rfl
  rw [jobs_deps hc, hok] at hmapM
  cases hmapM
  rw [jobs_lower hc, jobs_tile hc, jobs_duration hc] at hb'
  have hold : ∀ k ∈ done.map Candidate.key, S' k = S k := by
    intro k hk
    have hne : k ≠ c.key := fun heq => hnew (heq ▸ hk)
    have hget := hb'.start k (mem_append_left _ hk)
    rw [PyDict.get?_set_of_ne _ _ hne, hb.start k hk] at hget
    exact (Option.some.inj hget).symm
  have hstart : max (max c.slotStart (ListSchedule.latest 0 (c.deps.map ((jobs cs).stop S))))
      (b.free c.machine) = S' c.key := by
    have hget := hb'.start c.key (by simp)
    rw [PyDict.get?_set_self] at hget
    exact Option.some.inj hget
  refine ⟨S', ⟨_, by rw [map_append]; exact hb', ?_, ?_⟩, ?_⟩
  · rw [asapPlace, hread, hends, hfree]
  · rw [asapPlace, hread, hfree]
  · have hkey : c.key ∉ st.dispatches.keys := by
      rw [PyDict.keys, h.dispatches, map_map]
      exact hnew
    have hitems : (done.map fun a => (a.key, a.dispatch (S a.key))) =
        done.map fun a => (a.key, a.dispatch (S' a.key)) :=
      map_congr_left fun a ha => by rw [hold a.key (mem_map_of_mem ha)]
    rw [asapPlace, PyDict.items_set_of_not_mem _ hkey, hread, hfree, hstart, h.dispatches, hitems,
      map_append]
    rfl

/-- With a step for each candidate the loop places all of a queue in which every candidate is
behind those it waits for. -/
theorem asapLoop_eq (hnd : (cs.map Candidate.key).Nodup)
    (hdeps : ∀ l₁ a l₂, l₁ ++ a :: l₂ = cs → ∀ d ∈ a.deps, d ∈ l₁.map Candidate.key) {steps : ℕ}
    (hsteps : cs.length ≤ steps) :
    ∃ st S, asapLoop steps cs State.init = ([], st) ∧ Inv cs cs st S := by
  have hrun : ∀ (rest done : List Candidate) (steps : ℕ) (st : State) (S : String → ℚ),
      done ++ rest = cs → rest.length ≤ steps → Inv cs done st S →
      ∃ st' S', asapLoop steps rest st = ([], st') ∧ Inv cs cs st' S' := by
    intro rest
    induction rest with
    | nil =>
      intro done steps st S hsplit _ h
      rw [append_nil] at hsplit
      subst hsplit
      exact ⟨st, S, by cases steps <;> rfl, h⟩
    | cons c rest ih =>
      intro done steps st S hsplit hlen h
      cases steps with
      | zero => exact absurd hlen (by simp)
      | succ steps =>
        obtain ⟨hread, S', h'⟩ := h.place hnd hsplit hdeps
        have hany : (c.deps.any fun d => (st.endTimes.get? d).isNone) = false := by
          rw [any_eq_false]
          exact fun d hd => by simp [hread d hd]
        rw [asapLoop, hany]
        exact ih (done ++ [c]) steps _ S' (by simpa using hsplit) (by simpa using hlen) h'
  exact hrun cs [] steps State.init (fun _ => 0) rfl hsteps
    ⟨⟨_, ListSchedule.placed_init _, rfl, rfl⟩, rfl⟩

end Loop

end ModelBlaster.PeriodicPartition

/-! ## The periodic pass is sound -/

namespace ModelBlaster.PeriodicPartition

open List

/-! ### What the pass should do -/

/-- How many instances have an op that ends later than `tol` after its slot. -/
def lateInstances (tol : ℚ) (cs : List Candidate) (out : Pass) : ℕ :=
  out.instanceMeta.countP fun ins => cs.any fun c =>
    c.network = ins.network && c.inst = ins.inst &&
      (out.dispatches.get? c.key).any fun d => c.slotEnd + tol < d.stop

/-- Every candidate is placed exactly once, after its slot begins and its dependencies have ended,
and the ops of a tile do not overlap. -/
structure Packed (cs : List Candidate) (out : Pass) : Prop where
  /-- The queue is not given up. -/
  queue : out.queue = []
  /-- The ops are those of the candidates. -/
  keys : out.dispatches.keys.Perm (cs.map Candidate.key)
  /-- An op is what its candidate says, and starts in time. -/
  placed : ∀ c ∈ cs, ∃ start, out.dispatches.get? c.key = some (c.dispatch start) ∧
    c.slotStart ≤ start ∧
    ∀ dep ∈ c.deps, ∃ e, out.dispatches.get? dep = some e ∧ e.stop ≤ start
  /-- The ops of a tile do not overlap. -/
  disjoint : ∀ a b da db, out.dispatches.get? a = some da → out.dispatches.get? b = some db →
    a ≠ b → da.hardwareTarget = db.hardwareTarget →
    da.stop ≤ db.startTime ∨ db.stop ≤ da.startTime

section Sound

variable {T : PyDict String Template} {cfg : Config}

/-! ### Packing -/

/-- The sorted queue is placed as list scheduling does. -/
theorem exists_asapLoop (hnames : (cfg.networks.map NetCfg.name).Nodup)
    (hT : ∀ net ∈ cfg.networks, FeasibleTemplate (templateOf T net)) :
    ∃ st S, asapLoop ((sortCandidates (candidates T cfg)).length * 5)
        (sortCandidates (candidates T cfg)) State.init = ([], st) ∧
      Inv (sortCandidates (candidates T cfg)) (sortCandidates (candidates T cfg)) st S :=
  asapLoop_eq (((perm_insertionSort _ _).map _).nodup_iff.mpr (nodup_key_candidates hnames))
    (fun _ _ _ hsplit => deps_before hT hsplit) (Nat.le_mul_of_pos_right _ (by decide))

variable {cs : List Candidate} {st : State} {S : String → ℚ}

theorem Inv.keys_eq (h : Inv cs cs st S) : st.dispatches.keys = cs.map Candidate.key := by
  rw [PyDict.keys, h.dispatches, map_map]
  rfl

theorem Inv.get?_key (h : Inv cs cs st S) {c : Candidate} (hc : c ∈ cs) :
    st.dispatches.get? c.key = some (c.dispatch (S c.key)) := by
  rw [← PyDict.mem_items_iff, h.dispatches]
  exact mem_map_of_mem hc

theorem Inv.exists_candidate (h : Inv cs cs st S) {k : String} {d : Dispatch}
    (hget : st.dispatches.get? k = some d) : ∃ c ∈ cs, k = c.key ∧ d = c.dispatch (S c.key) := by
  rw [← PyDict.mem_items_iff, h.dispatches] at hget
  obtain ⟨c, hc, heq⟩ := mem_map.mp hget
  cases heq
  exact ⟨c, hc, rfl, rfl⟩

/-- The ops of a queue that list scheduling places are packed. -/
theorem Inv.packed (h : Inv cs cs st S) (hnd : (cs.map Candidate.key).Nodup)
    (hdur : ∀ c ∈ cs, 0 < c.duration) (hdeps : ∀ c ∈ cs, ∀ d ∈ c.deps, d ∈ cs.map Candidate.key)
    (insts : List Instance) (n : ℕ) :
    Packed cs ⟨[], st.dispatches, insts, n⟩ := by
  obtain ⟨b, hb, -, -⟩ := h.placed
  have hsched := hb.schedule
  have hstop : ∀ c ∈ cs, (jobs cs).stop S c.key = (c.dispatch (S c.key)).stop := fun c hc => by
    rw [ListSchedule.Jobs.stop, jobs_duration (find_key hnd hc)]
    rfl
  have hle : ∀ k ∈ cs.map Candidate.key, S k ≤ (jobs cs).stop S k := by
    intro k hk
    obtain ⟨c, hc, rfl⟩ := mem_map.mp hk
    rw [hstop c hc]
    exact (lt_add_of_pos_right _ (hdur c hc)).le
  refine ⟨rfl, List.Perm.of_eq h.keys_eq, fun c hc => ?_, ?_⟩
  · have hkey : c.key ∈ cs.map Candidate.key := mem_map_of_mem hc
    refine ⟨S c.key, h.get?_key hc, ?_, fun dep hdep => ?_⟩
    · have hlower := hsched.lower_le hkey
      rw [jobs_lower (find_key hnd hc)] at hlower
      exact (le_max_left _ _).trans hlower
    · obtain ⟨e, he, rfl⟩ := mem_map.mp (hdeps c hc dep hdep)
      refine ⟨_, h.get?_key he, ?_⟩
      rw [← hstop e he]
      exact hsched.end_dep_le hkey (by rwa [jobs_deps (find_key hnd hc)])
  · intro a b' da db ha hb' hab htile
    obtain ⟨c, hc, rfl, rfl⟩ := h.exists_candidate ha
    obtain ⟨e, he, rfl, rfl⟩ := h.exists_candidate hb'
    rw [← hstop c hc, ← hstop e he]
    refine hsched.disjoint hle (mem_map_of_mem hc) (mem_map_of_mem he) hab ?_
    rw [jobs_tile (find_key hnd hc), jobs_tile (find_key hnd he)]
    exact htile

/-! ### Deadlines -/

variable {ins : Instance}

/-- An instance is one of a network. -/
theorem mem_instances (h : ins ∈ instances T cfg) :
    ∃ net ∈ cfg.networks, ins.network = net.name ∧ ins.inst < net.nInst.toNat := by
  obtain ⟨⟨⟨net, inst⟩, i⟩, hmem, rfl⟩ := mem_map.mp h
  have hpair := fst_mem_of_mem_zipIdx hmem
  obtain ⟨net', hnet, hinst⟩ := mem_flatMap.mp hpair
  obtain ⟨inst', hlt, heq⟩ := mem_map.mp hinst
  cases heq
  exact ⟨net, hnet, rfl, mem_range.mp hlt⟩

/-- With distinct names the instances of a network are counted right. -/
theorem countP_instances (hnames : (cfg.networks.map NetCfg.name).Nodup) {net : NetCfg}
    (hnet : net ∈ cfg.networks) :
    (instances T cfg).countP (fun j => j.network = net.name) = net.nInst.toNat := by
  have hfst : ∀ (l : List (NetCfg × ℕ)) (n : ℕ), ((l.zipIdx n).map fun p =>
      (⟨p.1.1.name, p.1.2, p.2, (templateOf T p.1.1).items.length⟩ : Instance)).countP
        (fun j => j.network = net.name) = l.countP fun p => p.1.name = net.name := by
    intro l
    induction l with
    | nil => exact fun _ => rfl
    | cons p l ih =>
      intro n
      rw [zipIdx_cons, map_cons, countP_cons, countP_cons, ih]
  rw [instances, hfst]
  obtain ⟨l₁, l₂, heq⟩ := append_of_mem hnet
  rw [heq, map_append, map_cons, nodup_append, nodup_cons] at hnames
  -- the other networks contribute nothing
  have hother : ∀ l : List NetCfg, (∀ m ∈ l, m.name ≠ net.name) →
      (l.flatMap fun m => (List.range m.nInst.toNat).map fun inst => (m, inst)).countP
        (fun p => decide (p.1.name = net.name)) = 0 := by
    intro l hl
    rw [countP_eq_zero]
    intro p hp
    obtain ⟨m, hm, hp⟩ := mem_flatMap.mp hp
    obtain ⟨inst, -, rfl⟩ := mem_map.mp hp
    simpa using hl m hm
  rw [heq, flatMap_append, flatMap_cons, countP_append, countP_append,
    hother l₁ fun m hm heq => hnames.2.2 m.name (mem_map_of_mem hm) net.name (by simp) heq,
    hother l₂ fun m hm heq => hnames.2.1.1 (heq ▸ mem_map_of_mem hm),
    countP_eq_length.mpr]
  · simp
  · intro p hp
    obtain ⟨inst, -, rfl⟩ := mem_map.mp hp
    simp

/-- The count is right when the names are distinct and have no `#`. -/
theorem Inv.misses_iff (hnames : (cfg.networks.map NetCfg.name).Nodup)
    (hhash : ∀ net ∈ cfg.networks, '#' ∉ net.name.toList) (hperm : cs.Perm (candidates T cfg))
    (h : Inv cs cs st S) (hins : ins ∈ instances T cfg) :
    misses cfg.horizonMs (instances T cfg) st.dispatches ins = true ↔
      ∃ c ∈ cs, c.network = ins.network ∧ c.inst = ins.inst ∧
        c.slotEnd + 1 / 1000000 < (c.dispatch (S c.key)).stop := by
  obtain ⟨net, hnet, hnetName, hlt⟩ := mem_instances hins
  -- the end of the slot that the count uses is the one of the candidates
  have hslot : ∀ c ∈ cs, c.network = ins.network → c.inst = ins.inst →
      c.slotEnd = (ins.inst + 1) * slotLen cfg.horizonMs
        ((instances T cfg).countP fun j => j.network = ins.network) := by
    intro c hc hcnet hcinst
    obtain ⟨net', hnet', inst, hinst, item, -, rfl⟩ := mem_candidates.mp (hperm.subset hc)
    have hsame : net' = net := inj_on_of_nodup_map hnames hnet' hnet (hcnet.trans hnetName)
    subst hsame
    rw [hnetName, countP_instances hnames hnet', Int.toNat_of_nonneg (by omega)]
    simp only [candidate] at hcinst ⊢
    rw [hcinst]
  -- the keys that begin with that of the instance are those of its candidates
  have hkeys : ∀ c ∈ cs, (instanceKey ins.network ins.inst ++ "_").toList.isPrefixOf
      c.key.toList = true ↔ c.network = ins.network ∧ c.inst = ins.inst := by
    intro c hc
    obtain ⟨net', hnet', inst, -, item, -, rfl⟩ := mem_candidates.mp (hperm.subset hc)
    rw [hnetName]
    exact (isPrefixOf_opKey_iff (hhash net hnet) (hhash net' hnet')).trans
      (and_congr eq_comm eq_comm)
  simp only [misses]
  rw [ListSchedule.any_max?_iff, h.dispatches]
  constructor
  · rintro ⟨e, he, hlate⟩
    obtain ⟨item, hitem, rfl⟩ := mem_map.mp he
    obtain ⟨hitem, hpre⟩ := mem_filter.mp hitem
    obtain ⟨c, hc, rfl⟩ := mem_map.mp hitem
    obtain ⟨hcnet, hcinst⟩ := (hkeys c hc).mp hpre
    exact ⟨c, hc, hcnet, hcinst, by rw [hslot c hc hcnet hcinst]; exact hlate⟩
  · rintro ⟨c, hc, hcnet, hcinst, hlate⟩
    rw [hslot c hc hcnet hcinst] at hlate
    refine ⟨_, mem_map_of_mem (mem_filter.mpr ⟨mem_map_of_mem hc, ?_⟩), hlate⟩
    exact (hkeys c hc).mpr ⟨hcnet, hcinst⟩

/-! ### The pass -/

theorem feasibleTemplate_templateOf {solve : NetCfg → Template}
    (h : ∀ net ∈ cfg.networks, FeasibleTemplate (solve net)) :
    ∀ net ∈ cfg.networks, FeasibleTemplate (templateOf (templates solve cfg) net) := by
  intro net hnet
  have hkey : net.name ∈ (templates solve cfg).keys := by
    rw [templates, PyDict.mem_keys_ofList, map_map]
    exact mem_map_of_mem hnet
  obtain ⟨t, ht⟩ := PyDict.mem_keys_iff.mp hkey
  rw [templateOf, ht]
  obtain ⟨net', hnet', heq⟩ := mem_map.mp (PyDict.mem_of_get?_ofList ht)
  obtain ⟨-, rfl⟩ := Prod.mk.inj heq
  exact h net' hnet'

/-- The pass places every candidate, and counts the instances that end more than `1e-6` after their
slots. -/
theorem asap_sound (solve : NetCfg → Template) (cfg : Config)
    (hnames : (cfg.networks.map NetCfg.name).Nodup)
    (hhash : ∀ net ∈ cfg.networks, '#' ∉ net.name.toList)
    (hfeasible : ∀ net ∈ cfg.networks, FeasibleTemplate (solve net)) :
    Packed (candidates (templates solve cfg) cfg) (asapPass solve cfg) ∧
      (asapPass solve cfg).deadlineMisses =
        lateInstances (1 / 1000000) (candidates (templates solve cfg) cfg)
          (asapPass solve cfg) := by
  have hT := feasibleTemplate_templateOf hfeasible
  obtain ⟨st, S, hloop, hinv⟩ := exists_asapLoop hnames hT
  have hperm : (sortCandidates (candidates (templates solve cfg) cfg)).Perm
      (candidates (templates solve cfg) cfg) := perm_insertionSort _ _
  have hnd : ((sortCandidates (candidates (templates solve cfg) cfg)).map Candidate.key).Nodup :=
    (hperm.map _).nodup_iff.mpr (nodup_key_candidates hnames)
  have hpacked := hinv.packed hnd (fun c hc => duration_pos_of_mem hT (hperm.subset hc))
    (fun c hc d hd => by
      obtain ⟨e, he, rfl, -⟩ := exists_dep hT (hperm.subset hc) hd
      exact mem_map_of_mem (hperm.symm.subset he))
    (instances (templates solve cfg) cfg) ((instances (templates solve cfg) cfg).countP
      (misses cfg.horizonMs (instances (templates solve cfg) cfg) st.dispatches))
  have hout : asapPass solve cfg = ⟨[], st.dispatches, instances (templates solve cfg) cfg,
      (instances (templates solve cfg) cfg).countP
        (misses cfg.horizonMs (instances (templates solve cfg) cfg) st.dispatches)⟩ := by
    rw [asapPass, hloop]
  rw [hout]
  constructor
  · exact ⟨rfl, hpacked.keys.trans (hperm.map _),
      fun c hc => hpacked.placed c (hperm.symm.subset hc), hpacked.disjoint⟩
  · refine countP_congr fun ins hins => ?_
    rw [hinv.misses_iff hnames hhash hperm hins, any_eq_true]
    refine exists_congr fun c => ?_
    rw [hperm.mem_iff]
    refine and_congr_right fun hc => ?_
    rw [hinv.get?_key (hperm.symm.subset hc)]
    simp [and_assoc]

end Sound

/-! ### Examples -/

/-- An op on each tile, one after the other. -/
def twoOps : Template := PyDict.ofList [
  (0, ⟨"linear", "fc", "CPU_P#0", 0, 1 / 4, []⟩),
  (1, ⟨"relu", "act", "CPU_E#0", 1 / 4, 1, [0]⟩)]

/-- Two instances of a network in a horizon of one millisecond. -/
def twoInstances : Config := ⟨1, [⟨"mlp", "int8", some 2⟩]⟩

theorem feasible_twoOps : FeasibleTemplate twoOps where
  duration_pos := by decide +kernel
  dep_end_le := by decide +kernel

theorem asap_sound_twoInstances :
    Packed (candidates (templates (fun _ => twoOps) twoInstances) twoInstances)
        (asapPass (fun _ => twoOps) twoInstances) ∧
      (asapPass (fun _ => twoOps) twoInstances).deadlineMisses = lateInstances (1 / 1000000)
        (candidates (templates (fun _ => twoOps) twoInstances) twoInstances)
        (asapPass (fun _ => twoOps) twoInstances) :=
  asap_sound (fun _ => twoOps) twoInstances (by decide) (by decide) fun _ _ => feasible_twoOps

/-- One op on the first tile. -/
def oneOp (duration : ℚ) : Template :=
  PyDict.ofList [(0, ⟨"linear", "fc", "CPU_P#0", 0, duration, []⟩)]

theorem feasible_oneOp {duration : ℚ} (h : 0 < duration) : FeasibleTemplate (oneOp duration) where
  duration_pos item hitem := by
    rw [mem_singleton.mp hitem]
    exact h
  dep_end_le item hitem dep hdep := by
    rw [mem_singleton.mp hitem] at hdep
    exact absurd hdep not_mem_nil

/-- One instance of each of some networks in a horizon of one millisecond. -/
def oneEach (names : List String) : Config := ⟨1, names.map fun name => ⟨name, "int8", none⟩⟩

/-- How many instances end after their slots, and how many are counted. -/
def lateAndCounted (solve : NetCfg → Template) (cfg : Config) : ℕ × ℕ :=
  (lateInstances 0 (candidates (templates solve cfg) cfg) (asapPass solve cfg),
    (asapPass solve cfg).deadlineMisses)

/-- An instance that ends half a nanosecond after its slot is not counted; one is counted because of
another network whose name begins with its key; and two entries of one network are both counted
although they end within their slots. -/
theorem deadlineMisses_ne_late :
    ((∀ net ∈ (oneEach ["mlp"]).networks, FeasibleTemplate (oneOp (1 + 1 / 2000000))) ∧
      lateAndCounted (fun _ => oneOp (1 + 1 / 2000000)) (oneEach ["mlp"]) = (1, 0)) ∧
    ((∀ net ∈ (oneEach ["a", "a#0_b"]).networks,
        FeasibleTemplate (oneOp (if net.name = "a" then 1 / 2 else 1))) ∧
      lateAndCounted (fun net => oneOp (if net.name = "a" then 1 / 2 else 1))
        (oneEach ["a", "a#0_b"]) = (1, 2)) ∧
    (∀ net ∈ (oneEach ["mlp", "mlp"]).networks, FeasibleTemplate (oneOp (3 / 8))) ∧
      lateAndCounted (fun _ => oneOp (3 / 8)) (oneEach ["mlp", "mlp"]) = (0, 2) := by
  refine ⟨⟨fun _ _ => feasible_oneOp (by norm_num), by decide +kernel⟩,
    ⟨fun net _ => feasible_oneOp (by split_ifs <;> norm_num), by decide +kernel⟩,
    fun _ _ => feasible_oneOp (by norm_num), by decide +kernel⟩

end ModelBlaster.PeriodicPartition
