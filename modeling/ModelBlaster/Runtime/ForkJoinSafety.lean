import ModelBlaster.Runtime.Pool

/-!
# Fork and join are correct

A start semaphore has a permit only between the wake-up of its helper and the helper's step, a done
semaphore only between the end of a slice and the master's step. So the counts, the positions of
the helpers and the events of the current call determine one another.

## Main definitions

* `History`: the events of calls that have returned;
* `HelperRuns`: how far a helper has come in a call;
* `Inv`: the invariant.

## Main results

* `inv_of_run`: the invariant holds in every run;
* `forkJoin_correct`: every call invokes its function once for each index, and the threads exit.
-/

namespace ModelBlaster.Pool

open List Function

variable {Fn Ctx : Type} {S : Session Fn Ctx}

/-! ### Events of a call -/

/-- The thread of an event. -/
def PoolEvent.thread : PoolEvent Fn Ctx → Option ℕ
  | .invoke w _ | .finish w _ => some w
  | .enter _ | .leave _ => none

/-- The invocation that begins. -/
def PoolEvent.invoked : PoolEvent Fn Ctx → Option (Invocation Fn Ctx)
  | .invoke _ inv => some inv
  | _ => none

/-- The invocation that ends. -/
def PoolEvent.finished : PoolEvent Fn Ctx → Option (Invocation Fn Ctx)
  | .finish _ inv => some inv
  | _ => none

/-- Between the start and the return of a call, its function is invoked once for every index, and
all invocations end. -/
structure Invokes (job : Job Fn Ctx) (body : List (PoolEvent Fn Ctx)) : Prop where
  within : ∀ ev ∈ body, ev.thread ≠ none
  invoked : (body.filterMap PoolEvent.invoked).Perm ((List.range job.range).map job.at)
  finished : (body.filterMap PoolEvent.finished).Perm ((List.range job.range).map job.at)

/-- The events of the first `k` calls, when they have returned. -/
inductive History (S : Session Fn Ctx) : ℕ → List (PoolEvent Fn Ctx) → Prop
  | start : History S 0 []
  | call {k : ℕ} {past body : List (PoolEvent Fn Ctx)} {job : Job Fn Ctx} :
      History S k past → S.calls[k]? = some job → Invokes job body →
      History S (k + 1) (past ++ .enter k :: body ++ [.leave k])

/-- The events of one thread. -/
def eventsOf (w : ℕ) (body : List (PoolEvent Fn Ctx)) : List (PoolEvent Fn Ctx) :=
  body.filter fun ev => ev.thread = some w

/-- The events of a thread that invokes the function for some indices. -/
def invocations (w : ℕ) (job : Job Fn Ctx) (l : List ℕ) : List (PoolEvent Fn Ctx) :=
  l.flatMap fun i => [.invoke w (job.at i), .finish w (job.at i)]

theorem eventsOf_append (w : ℕ) (body evs : List (PoolEvent Fn Ctx)) :
    eventsOf w (body ++ evs) = eventsOf w body ++ eventsOf w evs :=
  filter_append body evs

variable {w : ℕ} {evs : List (PoolEvent Fn Ctx)}

/-- Events of one thread are its own. -/
theorem eventsOf_self (h : ∀ ev ∈ evs, ev.thread = some w) : eventsOf w evs = evs :=
  filter_eq_self.mpr fun ev hev => decide_eq_true (h ev hev)

variable {v : ℕ}

/-- Events of one thread are not those of another one. -/
theorem eventsOf_of_ne (h : ∀ ev ∈ evs, ev.thread = some w) (hne : v ≠ w) :
    eventsOf v evs = [] := by
  apply filter_eq_nil_iff.mpr
  intro ev hev hv
  exact hne (Option.some.inj ((of_decide_eq_true hv).symm.trans (h ev hev)))

theorem filterMap_invoked_invocations (w : ℕ) (job : Job Fn Ctx) (l : List ℕ) :
    (invocations w job l).filterMap PoolEvent.invoked = l.map job.at := by
  induction l with
  | nil => rfl
  | cons i rest ih => exact congrArg (job.at i :: ·) ih

theorem filterMap_finished_invocations (w : ℕ) (job : Job Fn Ctx) (l : List ℕ) :
    (invocations w job l).filterMap PoolEvent.finished = l.map job.at := by
  induction l with
  | nil => rfl
  | cons i rest ih => exact congrArg (job.at i :: ·) ih

/-- One invocation more. -/
theorem invocations_range'_succ (w : ℕ) (job : Job Fn Ctx) (first m : ℕ) :
    invocations w job (List.range' first (m + 1)) =
      invocations w job (List.range' first m) ++
        [.invoke w (job.at (first + m)), .finish w (job.at (first + m))] := by
  rw [range'_concat, invocations, flatMap_append, Nat.one_mul]
  rfl

variable {body : List (PoolEvent Fn Ctx)}

/-- Events are those of the single threads, in some order. -/
theorem flatMap_eventsOf_perm {n : ℕ} (h : ∀ ev ∈ body, ∃ w < n, ev.thread = some w) :
    ((List.range n).flatMap fun w => eventsOf w body).Perm body := by
  have hfirst : ∀ n, ((List.range n).flatMap fun w => eventsOf w body).Perm
      (body.filter fun ev => ∃ w < n, ev.thread = some w) := by
    intro n
    induction n with
    | zero => simp
    | succ n ih =>
      have hsplit := filter_append_perm (fun ev : PoolEvent Fn Ctx =>
        decide (∃ w < n, ev.thread = some w))
        (body.filter fun ev => ∃ w < n + 1, ev.thread = some w)
      rw [filter_filter, filter_filter] at hsplit
      -- What the first threads do not have is that of the last one.
      have hold : (body.filter fun ev => decide (∃ w < n, ev.thread = some w) &&
          decide (∃ w < n + 1, ev.thread = some w)) =
          body.filter fun ev => ∃ w < n, ev.thread = some w := by
        apply filter_congr
        intro ev _
        rw [← Bool.decide_and, decide_eq_decide]
        exact and_iff_left_of_imp fun ⟨w, hw, hev⟩ => ⟨w, Nat.lt_succ_of_lt hw, hev⟩
      have hnew : (body.filter fun ev => !decide (∃ w < n, ev.thread = some w) &&
          decide (∃ w < n + 1, ev.thread = some w)) = eventsOf n body := by
        apply filter_congr
        intro ev _
        rw [← decide_not, ← Bool.decide_and, decide_eq_decide]
        constructor
        · rintro ⟨hnot, w, hw, hev⟩
          obtain rfl : w = n := by
            by_contra hne
            exact hnot ⟨w, by omega, hev⟩
          exact hev
        · intro hev
          refine ⟨?_, n, Nat.lt_succ_self n, hev⟩
          rintro ⟨w, hw, hev'⟩
          have hwn : w = n := Option.some.inj (hev'.symm.trans hev)
          omega
      rw [hold, hnew] at hsplit
      rw [range_succ, flatMap_append, flatMap_singleton]
      exact (ih.append_right _).trans hsplit
  have hall : (body.filter fun ev => ∃ w < n, ev.thread = some w) = body :=
    filter_eq_self.mpr fun ev hev => decide_eq_true (h ev hev)
  exact (hfirst n).trans (List.Perm.of_eq hall)

/-- The slice of a thread. -/
theorem slice_eq (range n w : ℕ) :
    slice range n w = List.range' (sliceStart range n w) (sliceLength range n w) := by
  have hmin : min w (range % n) = if w < range % n then w else range % n := by
    split_ifs <;> omega
  rw [slice, sliceStart, sliceLength, hmin]

variable {job : Job Fn Ctx}

/-- When every thread has invoked the function for its slice, it has been invoked for every
index. -/
theorem invokes_of_slices {n : ℕ} (hn : 0 < n) (hbody : ∀ ev ∈ body, ∃ w < n, ev.thread = some w)
    (hslices : ∀ w < n, eventsOf w body = invocations w job (slice job.range n w)) :
    Invokes job body := by
  have hperm := flatMap_eventsOf_perm hbody
  have hevents : ((List.range n).flatMap fun w => eventsOf w body) =
      (List.range n).flatMap fun w => invocations w job (slice job.range n w) :=
    flatMap_congr fun w hw => hslices w (mem_range.mp hw)
  rw [hevents] at hperm
  have hrange : ((List.range n).flatMap fun w => (slice job.range n w).map job.at) =
      (List.range job.range).map job.at := by
    rw [← map_flatMap, flatMap_slice job.range hn]
  refine ⟨fun ev hev => ?_, ?_, ?_⟩
  · obtain ⟨w, -, hw⟩ := hbody ev hev
    rw [hw]
    exact Option.some_ne_none w
  · have hinvoked := (hperm.filterMap PoolEvent.invoked).symm
    simp only [filterMap_flatMap, filterMap_invoked_invocations, hrange] at hinvoked
    exact hinvoked
  · have hfinished := (hperm.filterMap PoolEvent.finished).symm
    simp only [filterMap_flatMap, filterMap_finished_invocations, hrange] at hfinished
    exact hfinished

/-! ### A helper -/

/-- The descriptor of a job. -/
def Job.descriptor (S : Session Fn Ctx) (job : Job Fn Ctx) : Descriptor Fn Ctx :=
  ⟨some job.fn, some job.ctx, job.range, S.nSlices job⟩

/-- How far a helper has come in a call: the counts of its semaphores, where it stands, and what it
has done so far. -/
inductive HelperRuns (job : Job Fn Ctx) (w first len start : ℕ) (pc : HelperPc Fn Ctx) (done : ℕ)
    (evs : List (PoolEvent Fn Ctx)) : Prop
  | signalled (hstart : start = 1) (hpc : pc = .asleep) (hdone : done = 0) (hevs : evs = [])
  | awake (hstart : start = 0) (hpc : pc = .awake) (hdone : done = 0) (hevs : evs = [])
  | gate (hstart : start = 0) (hpc : pc = .gate) (hdone : done = 0) (hevs : evs = [])
  | sizing (hstart : start = 0) (hpc : pc = .sizing) (hdone : done = 0) (hevs : evs = [])
  | loop {m : ℕ} (hm : m ≤ len) (hstart : start = 0) (hpc : pc = .loop (first + m) (first + len))
      (hdone : done = 0) (hevs : evs = invocations w job (List.range' first m))
  | inside {m : ℕ} (hm : m < len) (hstart : start = 0)
      (hpc : pc = .inside (job.at (first + m)) (first + len)) (hdone : done = 0)
      (hevs : evs = invocations w job (List.range' first m) ++ [.invoke w (job.at (first + m))])
  | posting (hstart : start = 0) (hpc : pc = .posting) (hdone : done = 0)
      (hevs : evs = invocations w job (List.range' first len))
  | posted (hstart : start = 0) (hpc : pc = .asleep) (hdone : done = 1)
      (hevs : evs = invocations w job (List.range' first len))

/-- A semaphore without permits has one when it is given. -/
theorem giveSem_zero (platform : Platform) : giveSem platform.semLimit 0 = 1 := by
  cases platform <;> rfl

/-- A step of a helper concerns its own semaphores and its own position. -/
structure OnlyHelper (w : ℕ) (s s' : PoolState Fn Ctx) : Prop where
  master : s'.master = s.master
  desc : s'.desc = s.desc
  quit : s'.quit = s.quit
  start : ∀ v, v ≠ w → s'.start v = s.start v
  helper : ∀ v, v ≠ w → s'.helper v = s.helper v
  done : ∀ v, v ≠ w → s'.done v = s.done v

variable {s s' : PoolState Fn Ctx}

theorem onlyHelper_of_stepHelper (h : stepHelper S w s = some (s', evs)) :
    OnlyHelper w s s' ∧ ∀ ev ∈ evs, ev.thread = some w := by
  have hne : ∀ {α : Type} (f : ℕ → α) (a : α) (v : ℕ), v ≠ w → Function.update f w a v = f v :=
    fun f a v hv => update_of_ne hv a f
  unfold stepHelper at h
  split at h
  · split at h
    · cases h
      exact ⟨⟨rfl, rfl, rfl, hne _ _, hne _ _, fun _ _ => rfl⟩, by simp⟩
    · cases h
  · cases h
    exact ⟨⟨rfl, rfl, rfl, fun _ _ => rfl, hne _ _, fun _ _ => rfl⟩, by simp⟩
  · cases h
    exact ⟨⟨rfl, rfl, rfl, fun _ _ => rfl, hne _ _, fun _ _ => rfl⟩, by simp⟩
  · cases h
    exact ⟨⟨rfl, rfl, rfl, fun _ _ => rfl, hne _ _, fun _ _ => rfl⟩, by simp⟩
  · split at h
    · cases h
      exact ⟨⟨rfl, rfl, rfl, fun _ _ => rfl, hne _ _, fun _ _ => rfl⟩, by simp [PoolEvent.thread]⟩
    · cases h
      exact ⟨⟨rfl, rfl, rfl, fun _ _ => rfl, hne _ _, fun _ _ => rfl⟩, by simp⟩
  · cases h
    exact ⟨⟨rfl, rfl, rfl, fun _ _ => rfl, hne _ _, fun _ _ => rfl⟩, by simp [PoolEvent.thread]⟩
  · cases h
    exact ⟨⟨rfl, rfl, rfl, fun _ _ => rfl, hne _ _, hne _ _⟩, by simp⟩
  · cases h

/-- A helper of a call goes on. -/
theorem HelperRuns.step {job : Job Fn Ctx} {w n : ℕ} {s s' : PoolState Fn Ctx}
    {evs evs' : List (PoolEvent Fn Ctx)}
    (h : HelperRuns job w (sliceStart job.range n w) (sliceLength job.range n w) (s.start w)
      (s.helper w) (s.done w) evs) (hdesc : s.desc = ⟨some job.fn, some job.ctx, job.range, n⟩)
    (hquit : s.quit = false) (hw : w < n) (hstep : stepHelper S w s = some (s', evs')) :
    HelperRuns job w (sliceStart job.range n w) (sliceLength job.range n w) (s'.start w)
      (s'.helper w) (s'.done w) (evs ++ evs') := by
  unfold stepHelper at hstep
  cases h with
  | signalled hstart hpc hdone hevs =>
    simp only [hpc, hstart, Nat.one_pos, if_true, Option.some_inj, Prod.mk.injEq] at hstep
    obtain ⟨rfl, rfl⟩ := hstep
    exact .awake (update_self ..) (update_self ..) hdone (by rw [hevs]; rfl)
  | awake hstart hpc hdone hevs =>
    simp only [hpc, hquit, Option.some_inj, Prod.mk.injEq] at hstep
    obtain ⟨rfl, rfl⟩ := hstep
    exact .gate hstart (update_self ..) hdone (by rw [hevs]; rfl)
  | gate hstart hpc hdone hevs =>
    simp only [hpc, hdesc, hw, if_true, Option.some_inj, Prod.mk.injEq] at hstep
    obtain ⟨rfl, rfl⟩ := hstep
    exact .sizing hstart (update_self ..) hdone (by rw [hevs]; rfl)
  | sizing hstart hpc hdone hevs =>
    simp only [hpc, hdesc, Option.some_inj, Prod.mk.injEq] at hstep
    obtain ⟨rfl, rfl⟩ := hstep
    exact .loop (Nat.zero_le _) hstart (update_self ..) hdone (by rw [hevs]; rfl)
  | @loop m hm hstart hpc hdone hevs =>
    simp only [hpc, hdesc, Nat.add_lt_add_iff_left] at hstep
    split_ifs at hstep with hlt
    · simp only [Option.some_inj, Prod.mk.injEq] at hstep
      obtain ⟨rfl, rfl⟩ := hstep
      exact .inside hlt hstart (update_self ..) hdone (by rw [hevs]; rfl)
    · simp only [Option.some_inj, Prod.mk.injEq] at hstep
      obtain ⟨rfl, rfl⟩ := hstep
      obtain rfl : m = sliceLength job.range n w := by omega
      exact .posting hstart (update_self ..) hdone (by rw [hevs, append_nil])
  | @inside m hm hstart hpc hdone hevs =>
    simp only [hpc, Option.some_inj, Prod.mk.injEq] at hstep
    obtain ⟨rfl, rfl⟩ := hstep
    refine .loop (Nat.succ_le_of_lt hm) hstart (update_self ..) hdone ?_
    rw [hevs, invocations_range'_succ, append_assoc]
    rfl
  | posting hstart hpc hdone hevs =>
    simp only [hpc, hdone, giveSem_zero, Option.some_inj, Prod.mk.injEq] at hstep
    obtain ⟨rfl, rfl⟩ := hstep
    exact .posted hstart (update_self ..) (update_self ..) (by rw [hevs, append_nil])
  | posted hstart hpc hdone hevs =>
    -- It waits for the next call.
    simp [hpc, hstart] at hstep

/-! ### The invariant -/

/-- The number of a helper. -/
def IsHelper (S : Session Fn Ctx) (w : ℕ) : Prop := 0 < w ∧ w < S.workers

/-- The helper sleeps, and its semaphores have no permits. -/
structure Dormant (s : PoolState Fn Ctx) (w : ℕ) : Prop where
  start : s.start w = 0
  helper : s.helper w = .asleep
  done : s.done w = 0

/-- The helper is woken to exit. -/
structure Leaving (s : PoolState Fn Ctx) (w : ℕ) : Prop where
  done : s.done w = 0
  position : s.start w = 1 ∧ s.helper w = .asleep ∨
    s.start w = 0 ∧ (s.helper w = .awake ∨ s.helper w = .exited)

/-- The helper has exited. -/
structure Gone (s : PoolState Fn Ctx) (w : ℕ) : Prop where
  start : s.start w = 0
  helper : s.helper w = .exited
  done : s.done w = 0

/-- How far the master has come in a call whose descriptor is stored. -/
inductive MasterRuns (S : Session Fn Ctx) (job : Job Fn Ctx) (k : ℕ) (pc : MasterPc)
    (evs : List (PoolEvent Fn Ctx)) : Prop
  | wake {v : ℕ} (hpos : 0 < v) (hle : v ≤ S.nSlices job) (hpc : pc = .wake k v) (hevs : evs = [])
  | work {i : ℕ} (hle : i ≤ sliceLength job.range (S.nSlices job) 0) (hpc : pc = .work k i)
      (hevs : evs = invocations 0 job (List.range' 0 i))
  | inside {i : ℕ} (hlt : i < sliceLength job.range (S.nSlices job) 0) (hpc : pc = .inside k i)
      (hevs : evs = invocations 0 job (List.range' 0 i) ++ [.invoke 0 (job.at i)])
  | gather {v : ℕ} (hpos : 0 < v) (hle : v ≤ S.nSlices job) (hpc : pc = .gather k v)
      (hevs : evs = invocations 0 job (slice job.range (S.nSlices job) 0))

/-- With the master at `pc`, the helper has been woken and not been waited for. -/
def Woken (n : ℕ) (pc : MasterPc) (w : ℕ) : Prop :=
  match pc with
  | .wake _ v => w < v
  | .gather _ v => v ≤ w ∧ w < n
  | _ => w < n

/-- With the master at `pc`, the helper has been waited for. -/
def Gathered (pc : MasterPc) (w : ℕ) : Prop :=
  match pc with
  | .gather _ v => w < v
  | _ => False

/-- A helper in a call, with the master at `pc`. -/
structure HelperOk (S : Session Fn Ctx) (job : Job Fn Ctx) (pc : MasterPc) (s : PoolState Fn Ctx)
    (body : List (PoolEvent Fn Ctx)) (w : ℕ) : Prop where
  runs : Woken (S.nSlices job) pc w →
    HelperRuns job w (sliceStart job.range (S.nSlices job) w)
      (sliceLength job.range (S.nSlices job) w) (s.start w) (s.helper w) (s.done w)
      (eventsOf w body)
  dormant : ¬Woken (S.nSlices job) pc w → Dormant s w
  ran : Gathered pc w → w < S.nSlices job →
    eventsOf w body = invocations w job (slice job.range (S.nSlices job) w)
  idle : ¬Woken (S.nSlices job) pc w → ¬Gathered pc w → eventsOf w body = []

/-- The fields of the descriptor that are stored so far. -/
def Stored (job : Job Fn Ctx) (k : ℕ) (s : PoolState Fn Ctx) : Prop :=
  s.master = .storeFn k ∨
    s.master = .storeCtx k ∧ s.desc.fn = some job.fn ∨
    s.master = .storeRange k ∧ s.desc.fn = some job.fn ∧ s.desc.ctx = some job.ctx ∨
    s.master = .storeSlices k ∧ s.desc.fn = some job.fn ∧ s.desc.ctx = some job.ctx ∧
      s.desc.range = job.range

/-- The events of a job that the master runs alone. -/
def Alone (job : Job Fn Ctx) (k : ℕ) (pc : MasterPc) (body : List (PoolEvent Fn Ctx)) : Prop :=
  ∃ i, i ≤ job.range ∧ pc = .alone k i ∧ body = invocations 0 job (List.range' 0 i) ∨
    i < job.range ∧ pc = .insideAlone k i ∧
      body = invocations 0 job (List.range' 0 i) ++ [.invoke 0 (job.at i)]

/-- What holds of the events and the state, according to where the master stands. -/
inductive Inv (S : Session Fn Ctx) (tr : List (PoolEvent Fn Ctx)) (s : PoolState Fn Ctx) : Prop
  | between {k : ℕ} (hpc : s.master = .idle k) (hhist : History S k tr) (hquit : s.quit = false)
      (hdormant : ∀ w, IsHelper S w → Dormant s w)
  | alone {k : ℕ} {job : Job Fn Ctx} {past body : List (PoolEvent Fn Ctx)}
      (hcall : S.calls[k]? = some job) (hhist : History S k past)
      (htr : tr = past ++ .enter k :: body) (halone : Alone job k s.master body)
      (hquit : s.quit = false) (hdormant : ∀ w, IsHelper S w → Dormant s w)
  | store {k : ℕ} {job : Job Fn Ctx} {past : List (PoolEvent Fn Ctx)}
      (hcall : S.calls[k]? = some job) (hslices : 0 < S.nSlices job) (hhist : History S k past)
      (htr : tr = past ++ [.enter k]) (hstored : Stored job k s)
      (hquit : s.quit = false) (hdormant : ∀ w, IsHelper S w → Dormant s w)
  | fork {k : ℕ} {job : Job Fn Ctx} {past body : List (PoolEvent Fn Ctx)}
      (hcall : S.calls[k]? = some job) (hslices : 0 < S.nSlices job) (hhist : History S k past)
      (htr : tr = past ++ .enter k :: body) (hdesc : s.desc = job.descriptor S)
      (hquit : s.quit = false)
      (hbody : ∀ ev ∈ body, ∃ w < S.nSlices job, ev.thread = some w)
      (hmaster : MasterRuns S job k s.master (eventsOf 0 body))
      (hhelpers : ∀ w, IsHelper S w → HelperOk S job s.master s body w)
  | dismiss {v : ℕ} (hpc : s.master = .dismiss v) (hpos : 0 < v) (hle : v ≤ S.workers)
      (hhist : History S S.calls.length tr) (hquit : s.quit = true)
      (hleaving : ∀ w, IsHelper S w → w < v → Leaving s w)
      (hdormant : ∀ w, IsHelper S w → v ≤ w → Dormant s w)
  | join {v : ℕ} (hpc : s.master = .join v) (hpos : 0 < v) (hle : v ≤ S.workers)
      (hhist : History S S.calls.length tr) (hquit : s.quit = true)
      (hgone : ∀ w, IsHelper S w → w < v → Gone s w)
      (hleaving : ∀ w, IsHelper S w → v ≤ w → Leaving s w)
  | freed (hpc : s.master = .freed) (hhist : History S S.calls.length tr)
      (hgone : ∀ w, IsHelper S w → Gone s w)

variable {k : ℕ} {tr : List (PoolEvent Fn Ctx)}

theorem History.le (h : History S k tr) :
    k ≤ S.calls.length := by
  cases h with
  | start => exact Nat.zero_le _
  | call _ hcall _ => exact (List.getElem?_eq_some_iff.mp hcall).1

/-- A dormant helper is blocked. -/
theorem Dormant.stepHelper (h : Dormant s w) :
    stepHelper S w s = none := by
  simp [Pool.stepHelper, h.helper, h.start]

/-- A helper that has exited takes no step. -/
theorem Gone.stepHelper (h : Gone s w) :
    stepHelper S w s = none := by
  simp [Pool.stepHelper, h.helper]

/-- A helper that is woken to exit does so. -/
theorem Leaving.step {s s' : PoolState Fn Ctx} {w : ℕ} {evs : List (PoolEvent Fn Ctx)}
    (h : Leaving s w) (hquit : s.quit = true) (hstep : Pool.stepHelper S w s = some (s', evs)) :
    Leaving s' w ∧ evs = [] := by
  unfold Pool.stepHelper at hstep
  rcases h.position with ⟨hstart, hpc⟩ | ⟨hstart, hpc | hpc⟩
  · simp only [hpc, hstart, Nat.one_pos, if_true, Option.some_inj, Prod.mk.injEq] at hstep
    obtain ⟨rfl, rfl⟩ := hstep
    exact ⟨⟨h.done, .inr ⟨update_self .., .inl (update_self ..)⟩⟩, rfl⟩
  · simp only [hpc, hquit, if_true, Option.some_inj, Prod.mk.injEq] at hstep
    obtain ⟨rfl, rfl⟩ := hstep
    exact ⟨⟨h.done, .inr ⟨hstart, .inr (update_self ..)⟩⟩, rfl⟩
  · simp [hpc] at hstep

theorem OnlyHelper.dormant (h : OnlyHelper w s s') (hne : v ≠ w) (hv : Dormant s v) :
    Dormant s' v :=
  ⟨(h.start v hne).trans hv.start, (h.helper v hne).trans hv.helper, (h.done v hne).trans hv.done⟩

theorem OnlyHelper.leaving (h : OnlyHelper w s s') (hne : v ≠ w) (hv : Leaving s v) :
    Leaving s' v := by
  refine ⟨(h.done v hne).trans hv.done, ?_⟩
  rw [h.start v hne, h.helper v hne]
  exact hv.position

theorem OnlyHelper.gone (h : OnlyHelper w s s') (hne : v ≠ w) (hv : Gone s v) : Gone s' v :=
  ⟨(h.start v hne).trans hv.start, (h.helper v hne).trans hv.helper, (h.done v hne).trans hv.done⟩

variable {pc : MasterPc}

/-- A helper that is not concerned, with the master at another place. -/
theorem HelperOk.congr {pc' : MasterPc} {body' : List (PoolEvent Fn Ctx)}
    (h : HelperOk S job pc s body w)
    (hwoken : Woken (S.nSlices job) pc' w ↔ Woken (S.nSlices job) pc w)
    (hgathered : Gathered pc' w ↔ Gathered pc w) (hstart : s'.start w = s.start w)
    (hhelper : s'.helper w = s.helper w) (hdone : s'.done w = s.done w)
    (hevents : eventsOf w body' = eventsOf w body) : HelperOk S job pc' s' body' w where
  runs hw := by
    rw [hstart, hhelper, hdone, hevents]
    exact h.runs (hwoken.mp hw)
  dormant hw :=
    let hold := h.dormant fun hpc => hw (hwoken.mpr hpc)
    ⟨hstart.trans hold.start, hhelper.trans hold.helper, hdone.trans hold.done⟩
  ran hg hlt := hevents.trans (h.ran (hgathered.mp hg) hlt)
  idle hw hg := hevents.trans
    (h.idle (fun hpc => hw (hwoken.mpr hpc)) fun hpc => hg (hgathered.mpr hpc))

/-! ### Steps keep the invariant -/

/-- The helper of a step is one of those that the master has woken. -/
theorem HelperOk.woken (h : HelperOk S job pc s body w) (hstep : stepHelper S w s = some (s', evs)) :
    Woken (S.nSlices job) pc w := by
  by_contra hnot
  rw [(h.dormant hnot).stepHelper] at hstep
  cases hstep

/-- Only helpers with a slice are woken. -/
theorem MasterRuns.lt_of_woken (h : MasterRuns S job k pc evs) (hw : Woken (S.nSlices job) pc w) :
    w < S.nSlices job := by
  cases h with
  | wake hpos hle hpc hevs =>
    rw [hpc] at hw
    exact Nat.lt_of_lt_of_le hw hle
  | work hle hpc hevs =>
    rw [hpc] at hw
    exact hw
  | inside hlt hpc hevs =>
    rw [hpc] at hw
    exact hw
  | gather hpos hle hpc hevs =>
    rw [hpc] at hw
    exact hw.2

/-- A step of a helper keeps the invariant. -/
theorem Inv.stepHelper (h : Inv S tr s) (hw : IsHelper S w)
    (hstep : stepHelper S w s = some (s', evs)) :
    Inv S (tr ++ evs) s' := by
  obtain ⟨honly, hthread⟩ := onlyHelper_of_stepHelper hstep
  have hblocked : ¬Dormant s w := fun hdormant => by
    rw [hdormant.stepHelper] at hstep
    cases hstep
  cases h with
  | between hpc hhist hquit hdormant => exact absurd (hdormant w hw) hblocked
  | alone hcall hhist htr halone hquit hdormant => exact absurd (hdormant w hw) hblocked
  | store hcall hslices hhist htr hstored hquit hdormant => exact absurd (hdormant w hw) hblocked
  | @fork k job past body hcall hslices hhist htr hdesc hquit hbody hmaster hhelpers =>
    have hwoken := (hhelpers w hw).woken hstep
    have hlt := hmaster.lt_of_woken hwoken
    have hself := eventsOf_self hthread
    refine .fork hcall hslices hhist
      (show _ = past ++ PoolEvent.enter k :: (body ++ evs) by rw [htr]; simp)
      (honly.desc.trans hdesc) (honly.quit.trans hquit) ?_ ?_ ?_
    · intro ev hev
      rcases mem_append.mp hev with hold | hnew
      · exact hbody ev hold
      · exact ⟨w, hlt, hthread ev hnew⟩
    · rw [honly.master, eventsOf_append, eventsOf_of_ne hthread (Nat.ne_of_lt hw.1), append_nil]
      exact hmaster
    · intro v hv
      rw [honly.master]
      by_cases hvw : v = w
      · subst hvw
        have hnext := ((hhelpers v hv).runs hwoken).step hdesc hquit hlt hstep
        rw [← hself, ← eventsOf_append] at hnext
        refine ⟨fun _ => hnext, fun hnot => absurd hwoken hnot, fun hg _ => ?_,
          fun hnot => absurd hwoken hnot⟩
        -- Who has been waited for sleeps.
        cases hmaster with
        | wake hpos hle hpc hevs => simp [hpc, Gathered] at hg
        | work hle hpc hevs => simp [hpc, Gathered] at hg
        | inside hlt hpc hevs => simp [hpc, Gathered] at hg
        | gather hpos hle hpc hevs =>
          rw [hpc] at hg hwoken
          exact absurd hwoken.1 (Nat.not_le.mpr hg)
      · refine (hhelpers v hv).congr Iff.rfl Iff.rfl (honly.start v hvw) (honly.helper v hvw)
          (honly.done v hvw) ?_
        rw [eventsOf_append, eventsOf_of_ne hthread hvw, append_nil]
  | @dismiss v hpc hpos hle hhist hquit hleaving hdormant =>
    have hlt : w < v := Nat.not_le.mp fun hvw => hblocked (hdormant w hw hvw)
    obtain ⟨hnext, rfl⟩ := (hleaving w hw hlt).step hquit hstep
    rw [append_nil]
    refine .dismiss (honly.master.trans hpc) hpos hle hhist (honly.quit.trans hquit) ?_ ?_
    · intro u hu huv
      by_cases huw : u = w
      · exact huw ▸ hnext
      · exact honly.leaving huw (hleaving u hu huv)
    · intro u hu hvu
      exact honly.dormant (by omega) (hdormant u hu hvu)
  | @join v hpc hpos hle hhist hquit hgone hleaving =>
    have hvw : v ≤ w := Nat.not_lt.mp fun hlt => by
      rw [(hgone w hw hlt).stepHelper] at hstep
      cases hstep
    obtain ⟨hnext, rfl⟩ := (hleaving w hw hvw).step hquit hstep
    rw [append_nil]
    refine .join (honly.master.trans hpc) hpos hle hhist (honly.quit.trans hquit) ?_ ?_
    · intro u hu huv
      exact honly.gone (by omega) (hgone u hu huv)
    · intro u hu hvu
      by_cases huw : u = w
      · exact huw ▸ hnext
      · exact honly.leaving huw (hleaving u hu hvu)
  | freed hpc hhist hgone =>
    rw [(hgone w hw).stepHelper] at hstep
    cases hstep

/-- The step of the master within a call. -/
theorem stepMaster_of_call (hpc : s.master.call? = some k) (hcall : S.calls[k]? = some job) :
    stepMaster S s = stepCall S s job s.master := by
  rw [stepMaster, hpc, Option.bind_some, hcall]

/-- There is a slice for the master. -/
theorem nSlices_pos (h : job.range ≠ 0) : 0 < S.nSlices job := by
  rw [Session.nSlices]
  split_ifs
  · exact Nat.pos_of_ne_zero h
  · exact S.workers_pos

variable {past : List (PoolEvent Fn Ctx)}

/-- The master returns from a call. -/
theorem History.call' (h : History S k past) (hcall : S.calls[k]? = some job)
    (hbody : Invokes job body) (htr : tr = past ++ .enter k :: body) :
    History S (k + 1) (tr ++ [.leave k]) := htr ▸ .call h hcall hbody

/-- The master runs a job alone. -/
private theorem Inv.step_alone (hcall : S.calls[k]? = some job) (hhist : History S k past)
    (htr : tr = past ++ .enter k :: body) (halone : Alone job k s.master body)
    (hquit : s.quit = false) (hdormant : ∀ w, IsHelper S w → Dormant s w)
    (hstep : stepMaster S s = some (s', evs)) : Inv S (tr ++ evs) s' := by
  have hsleep : ∀ pc, ∀ w, IsHelper S w → Dormant { s with master := pc } w :=
    fun pc w hw => ⟨(hdormant w hw).start, (hdormant w hw).helper, (hdormant w hw).done⟩
  obtain ⟨i, ⟨hle, hpc, hbody⟩ | ⟨hlt, hpc, hbody⟩⟩ := halone
  · rw [stepMaster_of_call (by rw [hpc]; rfl) hcall, hpc, stepCall] at hstep
    split_ifs at hstep with hlt
    · cases hstep
      refine .alone hcall hhist
        (show _ = past ++ PoolEvent.enter k :: (body ++ [.invoke 0 (job.at i)]) by rw [htr]; simp)
        ⟨i, .inr ⟨hlt, rfl, by rw [hbody]⟩⟩ hquit (hsleep _)
    · cases hstep
      obtain rfl : i = job.range := by omega
      refine .between rfl (hhist.call' hcall ?_ htr) hquit (hsleep _)
      -- All indices are one slice.
      rw [hbody]
      refine ⟨fun ev hev => ?_, ?_, ?_⟩
      · obtain ⟨j, -, hj⟩ := mem_flatMap.mp hev
        simp only [mem_cons, not_mem_nil, or_false] at hj
        rcases hj with rfl | rfl <;> exact Option.some_ne_none 0
      · rw [filterMap_invoked_invocations, range_eq_range']
      · rw [filterMap_finished_invocations, range_eq_range']
  · rw [stepMaster_of_call (by rw [hpc]; rfl) hcall, hpc, stepCall] at hstep
    cases hstep
    refine .alone hcall hhist
      (show _ = past ++ PoolEvent.enter k :: (body ++ [.finish 0 (job.at i)]) by rw [htr]; simp)
      ⟨i + 1, .inl ⟨hlt, rfl, ?_⟩⟩ hquit (hsleep _)
    rw [hbody, invocations_range'_succ, Nat.zero_add, append_assoc]
    rfl

/-- The master stores the descriptor. -/
private theorem Inv.step_store (hcall : S.calls[k]? = some job) (hslices : 0 < S.nSlices job)
    (hhist : History S k past) (htr : tr = past ++ [.enter k]) (hstored : Stored job k s)
    (hquit : s.quit = false) (hdormant : ∀ w, IsHelper S w → Dormant s w)
    (hstep : stepMaster S s = some (s', evs)) : Inv S (tr ++ evs) s' := by
  have hsleep : ∀ pc desc, ∀ w, IsHelper S w → Dormant { s with master := pc, desc := desc } w :=
    fun pc desc w hw => ⟨(hdormant w hw).start, (hdormant w hw).helper, (hdormant w hw).done⟩
  rcases hstored with hpc | ⟨hpc, hfn⟩ | ⟨hpc, hfn, hctx⟩ | ⟨hpc, hfn, hctx, hrange⟩
  · rw [stepMaster_of_call (by rw [hpc]; rfl) hcall, hpc, stepCall] at hstep
    cases hstep
    exact .store hcall hslices hhist (by rw [htr, append_nil]) (.inr (.inl ⟨rfl, rfl⟩)) hquit
      (hsleep _ _)
  · rw [stepMaster_of_call (by rw [hpc]; rfl) hcall, hpc, stepCall] at hstep
    cases hstep
    exact .store hcall hslices hhist (by rw [htr, append_nil])
      (.inr (.inr (.inl ⟨rfl, hfn, rfl⟩))) hquit (hsleep _ _)
  · rw [stepMaster_of_call (by rw [hpc]; rfl) hcall, hpc, stepCall] at hstep
    cases hstep
    exact .store hcall hslices hhist (by rw [htr, append_nil])
      (.inr (.inr (.inr ⟨rfl, hfn, hctx, rfl⟩))) hquit (hsleep _ _)
  · rw [stepMaster_of_call (by rw [hpc]; rfl) hcall, hpc, stepCall] at hstep
    cases hstep
    refine .fork hcall hslices hhist
      (show _ = past ++ PoolEvent.enter k :: [] by rw [htr, append_nil]) ?_ hquit
      (fun ev hev => absurd hev not_mem_nil) (.wake Nat.one_pos hslices rfl rfl) ?_
    · show (⟨s.desc.fn, s.desc.ctx, s.desc.range, S.nSlices job⟩ : Descriptor Fn Ctx) = _
      rw [hfn, hctx, hrange]
      rfl
    · intro w hw
      have hnot : ¬Woken (S.nSlices job) (.wake k 1) w := Nat.not_lt.mpr hw.1
      exact ⟨fun hwoken => absurd hwoken hnot, fun _ => hsleep _ _ w hw, fun hg => hg.elim,
        fun _ _ => rfl⟩

/-- The master wakes a helper. -/
private theorem HelperOk.wake {job : Job Fn Ctx} {k v w : ℕ} {s s' : PoolState Fn Ctx}
    {body : List (PoolEvent Fn Ctx)} (h : HelperOk S job (.wake k v) s body w)
    (hs' : s' = { s with
      master := .wake k (v + 1)
      start := Function.update s.start v (giveSem S.platform.semLimit (s.start v)) }) :
    HelperOk S job (.wake k (v + 1)) s' body w := by
  subst hs'
  by_cases hwv : w = v
  · subst hwv
    have hnot : ¬Woken (S.nSlices job) (.wake k w) w := Nat.lt_irrefl w
    have hsleep := h.dormant hnot
    have hevents := h.idle hnot fun hg => hg
    refine ⟨fun _ => ?_, fun hno => absurd (Nat.lt_succ_self w) hno, fun hg => hg.elim,
      fun _ _ => hevents⟩
    refine .signalled ?_ hsleep.helper hsleep.done hevents
    show Function.update s.start w _ w = 1
    rw [update_self, hsleep.start, giveSem_zero]
  · refine h.congr ?_ Iff.rfl (update_of_ne hwv _ _) rfl rfl rfl
    show w < v + 1 ↔ w < v
    omega

/-- The master takes the permit of a helper. -/
private theorem HelperOk.gather {job : Job Fn Ctx} {k v w : ℕ} {s s' : PoolState Fn Ctx}
    {body : List (PoolEvent Fn Ctx)} (h : HelperOk S job (.gather k v) s body w)
    (hv : v < S.nSlices job) (hdone : 0 < s.done v)
    (hs' : s' = { s with
      master := .gather k (v + 1), done := Function.update s.done v (s.done v - 1) }) :
    HelperOk S job (.gather k (v + 1)) s' body w := by
  subst hs'
  by_cases hwv : w = v
  · subst hwv
    have hruns := h.runs ⟨le_refl w, hv⟩
    have hnot : ¬Woken (S.nSlices job) (.gather k (w + 1)) w := fun hw =>
      absurd hw.1 (Nat.not_succ_le_self w)
    -- Only a helper that is done with its slice has given its semaphore.
    cases hruns with
    | posted hstart hpc hone hevs =>
      refine ⟨fun hw => absurd hw hnot, fun _ => ⟨hstart, hpc, ?_⟩,
        fun _ _ => by rw [hevs, slice_eq], fun _ hg => absurd (Nat.lt_succ_self w) hg⟩
      show Function.update s.done w _ w = 0
      rw [update_self, hone]
    | signalled _ _ hzero _ | awake _ _ hzero _ | gate _ _ hzero _ | sizing _ _ hzero _
    | loop _ _ _ hzero _ | inside _ _ _ hzero _ | posting _ _ hzero _ => omega
  · refine h.congr ?_ ?_ rfl rfl (update_of_ne hwv _ _) rfl
    · show v + 1 ≤ w ∧ w < S.nSlices job ↔ v ≤ w ∧ w < S.nSlices job
      omega
    · show w < v + 1 ↔ w < v
      omega

/-- The slice of the master begins with the first index. -/
theorem sliceStart_zero (range n : ℕ) : sliceStart range n 0 = 0 := by
  rw [sliceStart, Nat.zero_mul, Nat.zero_add]
  split_ifs with h
  · rfl
  · omega

/-- The master goes on in a call whose descriptor is stored. -/
private theorem Inv.step_fork (hcall : S.calls[k]? = some job) (hslices : 0 < S.nSlices job)
    (hhist : History S k past) (htr : tr = past ++ .enter k :: body)
    (hdesc : s.desc = job.descriptor S) (hquit : s.quit = false)
    (hbody : ∀ ev ∈ body, ∃ w < S.nSlices job, ev.thread = some w)
    (hmaster : MasterRuns S job k s.master (eventsOf 0 body))
    (hhelpers : ∀ w, IsHelper S w → HelperOk S job s.master s body w)
    (hstep : stepMaster S s = some (s', evs)) : Inv S (tr ++ evs) s' := by
  -- An event of the master does not concern the helpers.
  have hown : ∀ (ev : PoolEvent Fn Ctx) (pc pc' : MasterPc), ev.thread = some 0 →
      s.master = pc → (∀ w, Woken (S.nSlices job) pc' w ↔ Woken (S.nSlices job) pc w) →
      (∀ w, Gathered pc' w ↔ Gathered pc w) → ∀ w, IsHelper S w →
      HelperOk S job pc' { s with master := pc' } (body ++ [ev]) w := by
    intro ev pc pc' hev hpc hwoken hgathered w hw
    refine (hhelpers w hw).congr (hpc ▸ hwoken w) (hpc ▸ hgathered w) rfl rfl rfl ?_
    have hsingle : ∀ ev' ∈ [ev], ev'.thread = some 0 := fun ev' h => by
      rw [mem_singleton.mp h, hev]
    rw [eventsOf_append, eventsOf_of_ne hsingle (Nat.ne_of_gt hw.1), append_nil]
  have hwithin : ∀ ev : PoolEvent Fn Ctx, ev.thread = some 0 → ∀ ev' ∈ body ++ [ev],
      ∃ w < S.nSlices job, ev'.thread = some w := by
    intro ev hev ev' hmem
    rcases mem_append.mp hmem with hold | hnew
    · exact hbody ev' hold
    · exact ⟨0, hslices, by rw [mem_singleton.mp hnew, hev]⟩
  cases hmaster with
  | @wake v hpos hle hpc hevs =>
    rw [stepMaster_of_call (by rw [hpc]; rfl) hcall, hpc, stepCall] at hstep
    split_ifs at hstep with hlt
    · cases hstep
      rw [append_nil]
      exact .fork hcall hslices hhist htr hdesc hquit hbody (.wake (Nat.succ_pos v) hlt rfl hevs)
        fun w hw => (hpc ▸ hhelpers w hw).wake rfl
    · cases hstep
      rw [append_nil]
      obtain rfl : v = S.nSlices job := by omega
      exact .fork hcall hslices hhist htr hdesc hquit hbody (.work (Nat.zero_le _) rfl hevs)
        fun w hw => (hhelpers w hw).congr (by rw [hpc]; rfl) (by rw [hpc]; rfl) rfl rfl rfl rfl
  | @work i hle hpc hevs =>
    rw [stepMaster_of_call (by rw [hpc]; rfl) hcall, hpc, stepCall] at hstep
    split_ifs at hstep with hlt
    · cases hstep
      refine .fork hcall hslices hhist
        (show _ = past ++ PoolEvent.enter k :: (body ++ [.invoke 0 (job.at i)]) by rw [htr]; simp)
        hdesc hquit (hwithin _ rfl) (.inside hlt rfl ?_)
        (hown _ _ _ rfl hpc (fun _ => Iff.rfl) fun _ => Iff.rfl)
      rw [eventsOf_append, hevs]
      rfl
    · cases hstep
      rw [append_nil]
      obtain rfl : i = sliceLength job.range (S.nSlices job) 0 := by omega
      refine .fork hcall hslices hhist htr hdesc hquit hbody (.gather Nat.one_pos hslices rfl ?_)
        fun w hw => (hhelpers w hw).congr ?_ ?_ rfl rfl rfl rfl
      · rw [hevs, slice_eq, sliceStart_zero]
      · rw [hpc]
        exact and_iff_right hw.1
      · rw [hpc]
        exact iff_of_false (Nat.not_lt.mpr hw.1) fun h => h
  | @inside i hlt hpc hevs =>
    rw [stepMaster_of_call (by rw [hpc]; rfl) hcall, hpc, stepCall] at hstep
    cases hstep
    refine .fork hcall hslices hhist
      (show _ = past ++ PoolEvent.enter k :: (body ++ [.finish 0 (job.at i)]) by rw [htr]; simp)
      hdesc hquit (hwithin _ rfl) (.work hlt rfl ?_)
      (hown _ _ _ rfl hpc (fun _ => Iff.rfl) fun _ => Iff.rfl)
    rw [eventsOf_append, hevs, invocations_range'_succ, Nat.zero_add, append_assoc]
    rfl
  | @gather v hpos hle hpc hevs =>
    rw [stepMaster_of_call (by rw [hpc]; rfl) hcall, hpc, stepCall] at hstep
    split_ifs at hstep with hlt hdone
    · cases hstep
      rw [append_nil]
      exact .fork hcall hslices hhist htr hdesc hquit hbody (.gather (Nat.succ_pos v) hlt rfl hevs)
        fun w hw => (hpc ▸ hhelpers w hw).gather hlt hdone rfl
    · cases hstep
      obtain rfl : v = S.nSlices job := by omega
      have hnotWoken : ∀ w, ¬Woken (S.nSlices job) s.master w := by
        intro w
        rw [hpc]
        exact fun hw => absurd hw.2 (Nat.not_lt.mpr hw.1)
      refine .between rfl (hhist.call' hcall (invokes_of_slices hslices hbody ?_) htr) hquit ?_
      · intro w hw
        rcases Nat.eq_zero_or_pos w with rfl | hwpos
        · exact hevs
        · have hworkers : w < S.workers := by
            rw [Session.nSlices] at hw
            split_ifs at hw <;> omega
          exact (hhelpers w ⟨hwpos, hworkers⟩).ran (by rw [hpc]; exact hw) hw
      · intro w hw
        have hsleep := (hhelpers w hw).dormant (hnotWoken w)
        exact ⟨hsleep.start, hsleep.helper, hsleep.done⟩

/-- A step of the master keeps the invariant. -/
theorem Inv.stepMaster (h : Inv S tr s) (hstep : stepMaster S s = some (s', evs)) :
    Inv S (tr ++ evs) s' := by
  cases h with
  | @between k hpc hhist hquit hdormant =>
    have hsleep : ∀ pc quit, ∀ w, IsHelper S w → Dormant { s with master := pc, quit := quit } w :=
      fun pc quit w hw => ⟨(hdormant w hw).start, (hdormant w hw).helper, (hdormant w hw).done⟩
    cases hcall : S.calls[k]? with
    | none =>
      rw [Pool.stepMaster, hpc] at hstep
      simp only [MasterPc.call?, Option.bind_some, hcall, stepDestroy] at hstep
      cases hstep
      have hk : k = S.calls.length := Nat.le_antisymm hhist.le (List.getElem?_eq_none_iff.mp hcall)
      rw [append_nil]
      exact .dismiss rfl Nat.one_pos S.workers_pos (hk ▸ hhist) rfl
        (fun w hw hlt => absurd hw.1 (by omega)) fun w hw _ => hsleep _ _ w hw
    | some job =>
      rw [stepMaster_of_call (by rw [hpc]; rfl) hcall, hpc, stepCall] at hstep
      split_ifs at hstep with hempty hsingle
      · cases hstep
        have hinvokes : Invokes job ([] : List (PoolEvent Fn Ctx)) :=
          ⟨fun _ hev => absurd hev not_mem_nil, by rw [hempty]; exact .nil,
            by rw [hempty]; exact .nil⟩
        have hnext := hhist.call hcall hinvokes
        rw [append_assoc] at hnext
        exact .between rfl hnext hquit (hsleep _ _)
      · cases hstep
        exact .alone hcall hhist (show _ = _ ++ PoolEvent.enter _ :: [] from rfl) ⟨0, .inl ⟨Nat.zero_le _, rfl, rfl⟩⟩ hquit
          (hsleep _ _)
      · cases hstep
        exact .store hcall (nSlices_pos hempty) hhist rfl (.inl rfl) hquit (hsleep _ _)
  | alone hcall hhist htr halone hquit hdormant =>
    exact Inv.step_alone hcall hhist htr halone hquit hdormant hstep
  | store hcall hslices hhist htr hstored hquit hdormant =>
    exact Inv.step_store hcall hslices hhist htr hstored hquit hdormant hstep
  | fork hcall hslices hhist htr hdesc hquit hbody hmaster hhelpers =>
    exact Inv.step_fork hcall hslices hhist htr hdesc hquit hbody hmaster hhelpers hstep
  | @dismiss v hpc hpos hle hhist hquit hleaving hdormant =>
    rw [Pool.stepMaster, hpc] at hstep
    simp only [MasterPc.call?, Option.bind_none, stepDestroy] at hstep
    split_ifs at hstep with hlt
    · cases hstep
      rw [append_nil]
      refine .dismiss rfl (Nat.succ_pos v) hlt hhist hquit (fun w hw hwv => ?_) fun w hw hvw => ?_
      · by_cases heq : w = v
        · subst heq
          have hsleep := hdormant w hw (le_refl w)
          refine ⟨hsleep.done, .inl ⟨?_, hsleep.helper⟩⟩
          show Function.update s.start w _ w = 1
          rw [update_self, hsleep.start, giveSem_zero]
        · have hold := hleaving w hw (by omega)
          refine ⟨hold.done, ?_⟩
          have hkeep : Function.update s.start v (giveSem S.platform.semLimit (s.start v)) w =
            s.start w := update_of_ne heq _ _
          simp only [hkeep]
          exact hold.position
      · have hsleep := hdormant w hw (by omega)
        refine ⟨?_, hsleep.helper, hsleep.done⟩
        show Function.update s.start v _ w = 0
        rw [update_of_ne (by omega), hsleep.start]
    · cases hstep
      rw [append_nil]
      exact .join rfl Nat.one_pos S.workers_pos hhist hquit
        (fun w hw hlt' => absurd hw.1 (by omega)) fun w hw _ =>
          ⟨(hleaving w hw (by have := hw.2; omega)).done,
            (hleaving w hw (by have := hw.2; omega)).position⟩
  | @join v hpc hpos hle hhist hquit hgone hleaving =>
    rw [Pool.stepMaster, hpc] at hstep
    simp only [MasterPc.call?, Option.bind_none, stepDestroy] at hstep
    split_ifs at hstep with hlt
    · split at hstep
      next hexited =>
        cases hstep
        rw [append_nil]
        refine .join rfl (Nat.succ_pos v) hlt hhist hquit (fun w hw hwv => ?_) fun w hw hvw =>
          ⟨(hleaving w hw (by omega)).done, (hleaving w hw (by omega)).position⟩
        by_cases heq : w = v
        · subst heq
          have hlast := hleaving w hw (le_refl w)
          refine ⟨?_, hexited, hlast.done⟩
          rcases hlast.position with ⟨-, hasleep⟩ | ⟨hstart, -⟩
          · rw [hasleep] at hexited
            cases hexited
          · exact hstart
        · have hold := hgone w hw (by omega)
          exact ⟨hold.start, hold.helper, hold.done⟩
      next => cases hstep
    · cases hstep
      rw [append_nil]
      exact .freed rfl hhist fun w hw =>
        have hold := hgone w hw (by have := hw.2; omega)
        ⟨hold.start, hold.helper, hold.done⟩
  | freed hpc hhist hgone =>
    rw [Pool.stepMaster, hpc] at hstep
    cases hstep

/-- What holds in every run. -/
theorem inv_of_run (h : PoolRun S tr s) :
    Inv S tr s := by
  refine Interleaving.Run.invariant ?_ ?_ h
  · exact .between rfl .start rfl fun w _ => ⟨rfl, rfl, rfl⟩
  · intro tr evs s s' w _ hinv hstep
    rw [next] at hstep
    split_ifs at hstep with hzero hworkers
    · exact hinv.stepMaster hstep
    · exact hinv.stepHelper ⟨Nat.pos_of_ne_zero hzero, hworkers⟩ hstep

end ModelBlaster.Pool
