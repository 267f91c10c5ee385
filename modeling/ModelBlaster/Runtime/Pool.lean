import Mathlib.Data.List.Nodup
import Mathlib.Data.List.Range
import Mathlib.Data.List.Perm.Basic
import ModelBlaster.Library.Interleaving

/-!
# The worker pool

`modelblaster_pool_parallelize_1d` calls a function for every index of a range. The workers of the
pool get one slice of the range each and run at the same time. The functions that are run this way
only write to memory.

## Main definitions

* `slice`: the indices of one worker;
* `writeAll`: writes to memory, one after the other;
* `Parallelize1d`: the memories that a parallel run can leave;
* `Session`: the pool, and the calls that the master makes;
* `PoolState`: the descriptor, the semaphores, and where every thread stands;
* `stepMaster`, `stepHelper`: the next step of a thread.

## Main results

* `flatMap_slice`: the slices are the range;
* `parallelize1d_iff`: a parallel run whose writes do not overlap leaves what the loop leaves.
-/

/-! ## Semaphores -/

namespace ModelBlaster

/-- `k_sem_give` on a count: dropped at the limit. -/
def giveSem (limit : Option ℕ) (n : ℕ) : ℕ :=
  match limit with
  | none => n + 1
  | some most => if n < most then n + 1 else n

end ModelBlaster

namespace ModelBlaster.Pool

open List

/-- The indices that worker `w` calls the function for. -/
def slice (range nSlices w : ℕ) : List ℕ :=
  let per := range / nSlices
  let rem := range % nSlices
  List.range' (w * per + min w rem) (per + if w < rem then 1 else 0)

/-- The first slices are the first part of the range. -/
private theorem flatMap_slice_range (range nSlices k : ℕ) :
    (List.range k).flatMap (slice range nSlices) =
      List.range (k * (range / nSlices) + min k (range % nSlices)) := by
  induction k with
  | zero => simp
  | succ k ih =>
    have hend : (k + 1) * (range / nSlices) + min (k + 1) (range % nSlices) =
        (k * (range / nSlices) + min k (range % nSlices)) +
          (range / nSlices + if k < range % nSlices then 1 else 0) := by
      rw [Nat.succ_mul]
      split_ifs <;> omega
    rw [range_succ, flatMap_append, ih, hend, flatMap_singleton, slice,
      range_eq_range', range_eq_range']
    have happend := @List.range'_append_1 0 (k * (range / nSlices) + min k (range % nSlices))
      (range / nSlices + if k < range % nSlices then 1 else 0)
    rwa [Nat.zero_add] at happend

/-- Every index of the range is in the slice of one worker. -/
theorem flatMap_slice (range : ℕ) {nSlices : ℕ} (h : 0 < nSlices) :
    (List.range nSlices).flatMap (slice range nSlices) = List.range range := by
  rw [flatMap_slice_range, min_eq_right (Nat.mod_lt _ h).le, Nat.div_add_mod]

variable {Val : Type}

/-- Writes to memory, one after the other. -/
def writeAll (m : ℕ → Val) (ws : List (ℕ × Val)) : ℕ → Val :=
  ws.foldl (fun m w => Function.update m w.1 w.2) m

variable {m : ℕ → Val} {a : ℕ} {ws : List (ℕ × Val)}

/-- Writes elsewhere leave an element alone. -/
theorem writeAll_of_notMem (h : a ∉ ws.map Prod.fst) : writeAll m ws a = m a := by
  induction ws generalizing m with
  | nil => rfl
  | cons w ws ih =>
    rw [map_cons, mem_cons, not_or] at h
    show writeAll (Function.update m w.1 w.2) ws a = m a
    rw [ih h.2, Function.update_of_ne h.1]

/-- An element that is written once has the value of that write. -/
theorem writeAll_of_mem (hnd : (ws.map Prod.fst).Nodup) {v : Val} (h : (a, v) ∈ ws) :
    writeAll m ws a = v := by
  induction ws generalizing m with
  | nil => cases h
  | cons w ws ih =>
    rw [map_cons, nodup_cons] at hnd
    show writeAll (Function.update m w.1 w.2) ws a = v
    rcases mem_cons.mp h with rfl | hmem
    · rw [writeAll_of_notMem hnd.1, Function.update_self]
    · exact ih hnd.2 hmem

/-- The order of writes to distinct elements does not matter. -/
theorem writeAll_perm {ws' : List (ℕ × Val)} (hnd : (ws.map Prod.fst).Nodup) (h : ws'.Perm ws) :
    writeAll m ws' = writeAll m ws := by
  have hnd' : (ws'.map Prod.fst).Nodup := (h.map Prod.fst).nodup_iff.mpr hnd
  funext a
  by_cases ha : a ∈ ws.map Prod.fst
  · obtain ⟨⟨_, v⟩, hv, rfl⟩ := mem_map.mp ha
    rw [writeAll_of_mem hnd hv, writeAll_of_mem hnd' (h.mem_iff.mpr hv)]
  · have ha' : a ∉ ws'.map Prod.fst := fun hmem => ha ((h.map Prod.fst).mem_iff.mp hmem)
    rw [writeAll_of_notMem ha, writeAll_of_notMem ha']

/-- The memories that `modelblaster_pool_parallelize_1d` can leave, where `fn i` are the writes of
the call for index `i` and `workers` the number of threads. The workers' writes come in any
order. -/
def Parallelize1d (workers : ℕ) (fn : ℕ → List (ℕ × Val)) (range : ℕ) (m m' : ℕ → Val) : Prop :=
  if workers ≤ 1 then m' = writeAll m ((List.range range).flatMap fn)
  else
    let nSlices := min range workers
    ∃ ws, ws.Perm ((List.range nSlices).flatMap fun w => (slice range nSlices w).flatMap fn) ∧
      m' = writeAll m ws

/-- Without overlapping writes the parallel run leaves what the loop leaves. -/
theorem parallelize1d_iff {workers range : ℕ} {fn : ℕ → List (ℕ × Val)} {m' : ℕ → Val}
    (hnd : (((List.range range).flatMap fn).map Prod.fst).Nodup) :
    Parallelize1d workers fn range m m' ↔ m' = writeAll m ((List.range range).flatMap fn) := by
  unfold Parallelize1d
  split_ifs with hworkers
  · rfl
  have hall : ((List.range (min range workers)).flatMap fun w =>
      (slice range (min range workers) w).flatMap fn) = (List.range range).flatMap fn := by
    rcases Nat.eq_zero_or_pos range with rfl | hpos
    · simp
    · rw [← flatMap_assoc, flatMap_slice range (by omega)]
  simp only [hall]
  constructor
  · rintro ⟨ws, hperm, rfl⟩
    exact writeAll_perm hnd hperm
  · rintro rfl
    exact ⟨_, List.Perm.refl _, rfl⟩

end ModelBlaster.Pool

/-! ## Fork and join -/

namespace ModelBlaster.Pool

variable {Fn Ctx : Type}

/-! ### Jobs -/

/-- The arguments of a call of `modelblaster_pool_parallelize_1d`. -/
structure Job (Fn Ctx : Type) where
  /-- The function that is invoked. -/
  fn : Fn
  /-- Its first argument. -/
  ctx : Ctx
  /-- The number of indices. -/
  range : ℕ
deriving DecidableEq, Repr

/-- One invocation: the function, its context and the index. The descriptor of a pool without a job
has neither. -/
structure Invocation (Fn Ctx : Type) where
  fn : Option Fn
  ctx : Option Ctx
  index : ℕ
deriving DecidableEq, Repr

/-- The invocation of a job for an index. -/
def Job.at (job : Job Fn Ctx) (i : ℕ) : Invocation Fn Ctx := ⟨some job.fn, some job.ctx, i⟩

/-- The job descriptor of `modelblaster_pool_state`. -/
structure Descriptor (Fn Ctx : Type) where
  fn : Option Fn := none
  ctx : Option Ctx := none
  range : ℕ := 0
  /-- `n_active_slices` -/
  nActiveSlices : ℕ := 0
deriving DecidableEq, Repr

/-- The platforms that the pool is built for. -/
inductive Platform where
  | zephyr
  | linux
deriving DecidableEq, Repr

/-- The limit that `modelblaster_pool_create_on_harts` gives its semaphores. The shim for Linux
ignores it. -/
def Platform.semLimit : Platform → Option ℕ
  | .zephyr => some 1
  | .linux => none

/-- A pool that `modelblaster_pool_create_on_harts` returns, and the calls that its master makes
before it destroys the pool. -/
structure Session (Fn Ctx : Type) where
  platform : Platform
  /-- `n_workers` -/
  workers : ℕ
  workers_pos : 0 < workers
  /-- `MODELBLASTER_POOL_MAX_WORKERS` -/
  workers_le : workers ≤ 16
  calls : List (Job Fn Ctx)

/-- `n_slices` -/
def Session.nSlices (S : Session Fn Ctx) (job : Job Fn Ctx) : ℕ :=
  if job.range < S.workers then job.range else S.workers

/-- The first index of a slice. -/
def sliceStart (range nSlices w : ℕ) : ℕ :=
  w * (range / nSlices) + if w < range % nSlices then w else range % nSlices

/-- The number of indices of a slice. -/
def sliceLength (range nSlices w : ℕ) : ℕ :=
  range / nSlices + if w < range % nSlices then 1 else 0

/-! ### Threads -/

/-- Where the master stands. -/
inductive MasterPc where
  /-- It makes the call with this number, or destroys the pool when there is none. -/
  | idle (k : ℕ)
  /-- It runs the job alone, and is about to invoke the function for this index. -/
  | alone (k i : ℕ)
  /-- The function runs. -/
  | insideAlone (k i : ℕ)
  /-- `pool->fn = fn` -/
  | storeFn (k : ℕ)
  /-- `pool->ctx = ctx` -/
  | storeCtx (k : ℕ)
  /-- `pool->range = range` -/
  | storeRange (k : ℕ)
  /-- `pool->n_active_slices = n_slices` -/
  | storeSlices (k : ℕ)
  /-- It wakes this helper. -/
  | wake (k w : ℕ)
  /-- It runs its slice, and is about to invoke the function for this index. -/
  | work (k i : ℕ)
  /-- The function runs. -/
  | inside (k i : ℕ)
  /-- It waits for this helper. -/
  | gather (k w : ℕ)
  /-- It has set `quit`, and wakes this helper. -/
  | dismiss (w : ℕ)
  /-- It waits until this helper has exited. -/
  | join (w : ℕ)
  /-- The pool is freed. -/
  | freed
deriving DecidableEq, Repr

/-- Where a helper stands. -/
inductive HelperPc (Fn Ctx : Type) where
  /-- It waits for its start semaphore. -/
  | asleep
  /-- It reads `quit`. -/
  | awake
  /-- It compares its number with the number of active slices. -/
  | gate
  /-- It computes its slice. -/
  | sizing
  /-- It is about to invoke the function for an index, or is done at the end of its slice. -/
  | loop (i e : ℕ)
  /-- The function runs. -/
  | inside (inv : Invocation Fn Ctx) (e : ℕ)
  /-- It gives its done semaphore. -/
  | posting
  /-- It has returned. -/
  | exited
deriving DecidableEq, Repr

/-- The helper is where it reads the job descriptor. -/
def HelperPc.Reads : HelperPc Fn Ctx → Prop
  | .asleep | .awake | .posting | .exited => False
  | .gate | .sizing | .loop _ _ | .inside _ _ => True

/-- The master is where it writes the job descriptor. -/
def MasterPc.Writes : MasterPc → Prop
  | .storeFn _ | .storeCtx _ | .storeRange _ | .storeSlices _ => True
  | _ => False

/-- The state of the pool, and where every thread stands. -/
structure PoolState (Fn Ctx : Type) where
  master : MasterPc := .idle 0
  helper : ℕ → HelperPc Fn Ctx := fun _ => .asleep
  desc : Descriptor Fn Ctx := {}
  quit : Bool := false
  /-- The counts of the start semaphores. -/
  start : ℕ → ℕ := fun _ => 0
  /-- The counts of the done semaphores. -/
  done : ℕ → ℕ := fun _ => 0

/-- What can be observed. -/
inductive PoolEvent (Fn Ctx : Type) where
  /-- The call with this number begins. -/
  | enter (k : ℕ)
  /-- A thread invokes the function of a job. -/
  | invoke (w : ℕ) (inv : Invocation Fn Ctx)
  /-- The function returns. -/
  | finish (w : ℕ) (inv : Invocation Fn Ctx)
  /-- The call with this number returns. -/
  | leave (k : ℕ)
deriving DecidableEq, Repr

/-! ### Steps -/

/-- The next step of the master within the call of a job. -/
def stepCall (S : Session Fn Ctx) (s : PoolState Fn Ctx) (job : Job Fn Ctx) :
    MasterPc → Option (PoolState Fn Ctx × List (PoolEvent Fn Ctx))
  | .idle k =>
    if job.range = 0 then some ({ s with master := .idle (k + 1) }, [.enter k, .leave k])
    else if S.workers ≤ 1 then some ({ s with master := .alone k 0 }, [.enter k])
    else some ({ s with master := .storeFn k }, [.enter k])
  | .alone k i =>
    if i < job.range then some ({ s with master := .insideAlone k i }, [.invoke 0 (job.at i)])
    else some ({ s with master := .idle (k + 1) }, [.leave k])
  | .insideAlone k i => some ({ s with master := .alone k (i + 1) }, [.finish 0 (job.at i)])
  | .storeFn k =>
    some ({ s with master := .storeCtx k, desc := { s.desc with fn := some job.fn } }, [])
  | .storeCtx k =>
    some ({ s with master := .storeRange k, desc := { s.desc with ctx := some job.ctx } }, [])
  | .storeRange k =>
    some ({ s with master := .storeSlices k, desc := { s.desc with range := job.range } }, [])
  | .storeSlices k =>
    some ({ s with
      master := .wake k 1, desc := { s.desc with nActiveSlices := S.nSlices job } }, [])
  | .wake k w =>
    if w < S.nSlices job then
      some ({ s with
        master := .wake k (w + 1)
        start := Function.update s.start w (giveSem S.platform.semLimit (s.start w)) }, [])
    else some ({ s with master := .work k 0 }, [])
  | .work k i =>
    if i < sliceLength job.range (S.nSlices job) 0 then
      some ({ s with master := .inside k i }, [.invoke 0 (job.at i)])
    else some ({ s with master := .gather k 1 }, [])
  | .inside k i => some ({ s with master := .work k (i + 1) }, [.finish 0 (job.at i)])
  | .gather k w =>
    if w < S.nSlices job then
      if 0 < s.done w then
        some ({ s with
          master := .gather k (w + 1)
          done := Function.update s.done w (s.done w - 1) }, [])
      else none
    else some ({ s with master := .idle (k + 1) }, [.leave k])
  | .dismiss _ | .join _ | .freed => none

/-- The number of the call that the master makes. -/
def MasterPc.call? : MasterPc → Option ℕ
  | .idle k | .alone k _ | .insideAlone k _ | .storeFn k | .storeCtx k | .storeRange k
  | .storeSlices k | .wake k _ | .work k _ | .inside k _ | .gather k _ => some k
  | .dismiss _ | .join _ | .freed => none

/-- The next step of the master behind its last call: `modelblaster_pool_destroy`. -/
def stepDestroy (S : Session Fn Ctx) (s : PoolState Fn Ctx) :
    MasterPc → Option (PoolState Fn Ctx × List (PoolEvent Fn Ctx))
  | .idle _ => some ({ s with master := .dismiss 1, quit := true }, [])
  | .dismiss w =>
    if w < S.workers then
      some ({ s with
        master := .dismiss (w + 1)
        start := Function.update s.start w (giveSem S.platform.semLimit (s.start w)) }, [])
    else some ({ s with master := .join 1 }, [])
  | .join w =>
    if w < S.workers then
      match s.helper w with
      | .exited => some ({ s with master := .join (w + 1) }, [])
      | _ => none
    else some ({ s with master := .freed }, [])
  | _ => none

/-- The next step of the master. -/
def stepMaster (S : Session Fn Ctx) (s : PoolState Fn Ctx) :
    Option (PoolState Fn Ctx × List (PoolEvent Fn Ctx)) :=
  match s.master.call?.bind fun k => S.calls[k]? with
  | some job => stepCall S s job s.master
  | none => stepDestroy S s s.master

/-- The next step of a helper: `modelblaster_pool_worker_fn`. -/
def stepHelper (S : Session Fn Ctx) (w : ℕ) (s : PoolState Fn Ctx) :
    Option (PoolState Fn Ctx × List (PoolEvent Fn Ctx)) :=
  let goto := fun pc => Function.update s.helper w pc
  match s.helper w with
  | .asleep =>
    if 0 < s.start w then
      some ({ s with
        helper := goto .awake, start := Function.update s.start w (s.start w - 1) }, [])
    else none
  | .awake => some ({ s with helper := goto (if s.quit then .exited else .gate) }, [])
  | .gate =>
    some ({ s with helper := goto (if w < s.desc.nActiveSlices then .sizing else .posting) }, [])
  | .sizing =>
    let first := sliceStart s.desc.range s.desc.nActiveSlices w
    some ({ s with
      helper := goto (.loop first (first + sliceLength s.desc.range s.desc.nActiveSlices w)) }, [])
  | .loop i e =>
    if i < e then
      let inv := ⟨s.desc.fn, s.desc.ctx, i⟩
      some ({ s with helper := goto (.inside inv e) }, [.invoke w inv])
    else some ({ s with helper := goto .posting }, [])
  | .inside inv e => some ({ s with helper := goto (.loop (inv.index + 1) e) }, [.finish w inv])
  | .posting =>
    some ({ s with
      helper := goto .asleep
      done := Function.update s.done w (giveSem S.platform.semLimit (s.done w)) }, [])
  | .exited => none

/-- The next step of a thread: the master has number 0, the helpers have the numbers behind it. -/
def next (S : Session Fn Ctx) (w : ℕ) (s : PoolState Fn Ctx) :
    Option (PoolState Fn Ctx × List (PoolEvent Fn Ctx)) :=
  if w = 0 then stepMaster S s else if w < S.workers then stepHelper S w s else none

/-- The runs of the threads of a pool. -/
abbrev PoolRun (S : Session Fn Ctx) (tr : List (PoolEvent Fn Ctx)) (s : PoolState Fn Ctx) : Prop :=
  Interleaving.Run (next S) {} tr s

end ModelBlaster.Pool
