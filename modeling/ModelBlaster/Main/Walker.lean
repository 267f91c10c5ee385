import ModelBlaster.Main.Startup
import ModelBlaster.Runtime.Pool

/-!
# The walker

The threads of the generated main. Every worker scans the table in order and runs the entries it
claims: it takes a permit of every entry that this one depends on, passes the gate, locks the
harts of the entry in ascending order, calls the kernel, unlocks, counts the dispatch, verifies
the output behind the last one, and gives its own permits.

A kernel reads and writes shared memory one location at a time. What it computes, and which
locations it touches, are parameters. Times, profiles and traces are left out.

## Main definitions

* `Program`: the table, the workers and what the binary was built with;
* `State`: the shared memory, semaphores, locks and counters, and where every worker stands;
* `stepWorker`: the next step of a worker;
* `StepCase`: the same step by step, as a relation;
* `Program.Owns`: the worker claims the entry;
* `Thread.Past`: how far a worker has come;
* `Running`: the entry is started but not finished.

## Main results

* `stepCase_of_stepWorker`: what a step can do;
* `released_of_permits`, `released_of_taken`: whose permits exist and whose were taken;
* `holder_iff_of_run`: which locks a worker holds;
* `start_mem_iff`, `finish_mem_iff`: the events in terms of the workers;
* `walker_safe`: the safety of the walker.
-/

namespace ModelBlaster

variable {τ Loc Val : Type}

/-- `XpurtEntry.n_fanout` -/
def XpurtEntry.nFanout (e : XpurtEntry τ) : ℕ := e.fanoutEntryIds.length

/-- The semaphores that an entry takes, in order: those of its dependencies, then that of its
time dependency unless it is one of them. -/
def XpurtEntry.takes (e : XpurtEntry τ) : List ℕ :=
  e.depsEntryIds ++
    if 0 ≤ e.timeDepEntryId ∧ e.timeDepEntryId.toNat ∉ e.depsEntryIds then
      [e.timeDepEntryId.toNat]
    else []

/-- The hart locks of an entry in the order it takes them. -/
def XpurtEntry.lockOrder (e : XpurtEntry τ) : List ℤ := e.harts.insertionSort (· ≤ ·)

/-- What the threads run on. -/
structure Program (τ Loc Val : Type) where
  /-- The dispatch table. -/
  table : List (XpurtEntry τ)
  /-- The discovered workers. -/
  workers : List Worker
  /-- The compiled kinds, which also name the compiled implementations. -/
  kinds : List String
  /-- `MODEL_OP_COUNT` of the networks in the binary. -/
  opCount : String → Option ℕ
  /-- The limit at which a semaphore drops permits, if it has one. -/
  semLimit : Option ℕ
  /-- The locations that a kernel reads, in the order of its reads. -/
  reads : XpurtEntry τ → List Loc
  /-- The locations that a kernel writes, in the order of its writes. -/
  writes : XpurtEntry τ → List Loc
  /-- The value that a kernel writes to the location at a position, from the values it read. -/
  kernel : XpurtEntry τ → List Val → ℕ → Val
  /-- The output array of a network. -/
  outputs : String → List Loc
  /-- The memory before the run. -/
  init : Loc → Val

/-- Where a worker stands in an iteration of its scan. -/
inductive Phase (Val : Type) where
  /-- It looks at the entry. -/
  | scan
  /-- It takes the semaphore at this position. -/
  | wait (k : ℕ)
  /-- It waits for the start time. -/
  | gate
  /-- It takes the hart lock at this position. -/
  | lock (k : ℕ)
  /-- The kernel runs, and has read these values. -/
  | load (vals : List Val)
  /-- The kernel runs, has read these values and writes its output at this position. -/
  | store (vals : List Val) (k : ℕ)
  /-- It releases its hart locks, of which this many are left. -/
  | unlock (k : ℕ)
  /-- It counts the dispatch. -/
  | count
  /-- It compares the output with the golden one, and has read these values. -/
  | verify (vals : List Val)
  /-- It has given its semaphore this many times. -/
  | give (k : ℕ)
deriving DecidableEq, Repr

/-- A worker: the position of its scan and the phase of the iteration. -/
structure Thread (Val : Type) where
  /-- The loop counter of the scan. -/
  i : ℕ
  /-- The phase of the iteration. -/
  phase : Phase Val := .scan
deriving DecidableEq, Repr

/-- The state that the workers share, and where each of them stands. -/
structure State (Loc Val : Type) where
  /-- The workers. -/
  threads : ℕ → Thread Val
  /-- The counts of the completion semaphores. -/
  permits : ℕ → ℕ
  /-- The worker that holds the lock of a hart. -/
  holder : ℤ → Option ℕ
  /-- The shared memory. -/
  mem : Loc → Val
  /-- `completed_dispatches`, by network and instance. -/
  completed : String × ℤ → ℕ
  /-- The output that a network was verified with. -/
  captured : String → Option (List Val)
  /-- Whether `sys_reboot` was called. -/
  halted : Bool

/-- What can be observed of a run: a worker does something with an entry. -/
inductive Event where
  /-- It starts the entry. -/
  | start (entry worker : ℕ)
  /-- It is done with the entry, up to its permits. -/
  | finish (entry worker : ℕ)
  /-- It counts the entry as completed. -/
  | count (entry worker : ℕ)
  /-- It has captured the output of the network behind this entry. -/
  | capture (entry worker : ℕ)
deriving DecidableEq, Repr

/-- The entry that an event starts. -/
def Event.started : Event → Option ℕ
  | .start j _ => some j
  | _ => none

/-- The entry that an event counts. -/
def Event.counted : Event → Option ℕ
  | .count j _ => some j
  | _ => none

/-- `completion_sems` of the Zephyr build: initialised with count 0 and limit 32. -/
def zephyrLimit : Option ℕ := some 32

/-- `completion_sems` of the POSIX build, whose shim ignores the limit. -/
def posixLimit : Option ℕ := none

/-- Move one worker. -/
def State.goto (s : State Loc Val) (w i : ℕ) (phase : Phase Val) : State Loc Val :=
  { s with threads := Function.update s.threads w ⟨i, phase⟩ }

/-- The state before the first step. -/
def Program.start (P : Program τ Loc Val) : State Loc Val where
  threads := fun _ => ⟨0, .scan⟩
  permits := fun _ => 0
  holder := fun _ => none
  mem := P.init
  completed := fun _ => 0
  captured := fun _ => none
  halted := false

variable [DecidableEq Loc]

/-- The next step of worker `w` in its iteration for entry `e` at position `i`. -/
def stepEntry (P : Program τ Loc Val) (w : ℕ) (wa : Worker) (i : ℕ) (e : XpurtEntry τ)
    (s : State Loc Val) : Option (State Loc Val × List Event) :=
  match (s.threads w).phase with
  | .scan =>
    if wa.Claims e then some (s.goto w i (.wait 0), []) else some (s.goto w (i + 1) .scan, [])
  | .wait k =>
    match e.takes[k]? with
    | some p =>
      if s.permits p = 0 then none
      else some ({ s with permits := Function.update s.permits p (s.permits p - 1) }.goto w i
        (.wait (k + 1)), [])
    | none => some (s.goto w i .gate, [])
  | .gate =>
    -- No kernel for an unknown network, nor for a zero-cost op.
    if P.opCount e.network = none ∨ e.dispatchId < 0 then
      some (s.goto w i (.give 0), [.start i w, .finish i w])
    else some (s.goto w i (.lock 0), [])
  | .lock k =>
    match e.lockOrder[k]? with
    | some h =>
      if s.holder h ≠ none then none
      else some ({ s with holder := Function.update s.holder h (some w) }.goto w i
        (.lock (k + 1)), [])
    | none =>
      if e.impl ∈ P.kinds then some (s.goto w i (.load []), [.start i w])
      else some ({ s with halted := true }, [])
  | .load vals =>
    match (P.reads e)[vals.length]? with
    | some l => some (s.goto w i (.load (vals ++ [s.mem l])), [])
    | none => some (s.goto w i (.store vals 0), [])
  | .store vals k =>
    match (P.writes e)[k]? with
    | some l =>
      some ({ s with mem := Function.update s.mem l (P.kernel e vals k) }.goto w i
        (.store vals (k + 1)), [])
    | none => some (s.goto w i (.unlock e.lockOrder.length), [.finish i w])
  | .unlock k =>
    match k with
    | 0 => some (s.goto w i .count, [])
    | k + 1 =>
      match e.lockOrder[k]? with
      | some h =>
        some ({ s with holder := Function.update s.holder h none }.goto w i (.unlock k), [])
      | none => none
  | .count =>
    let slot := (e.network, e.instanceNo)
    let done := s.completed slot + 1
    let s' := { s with completed := Function.update s.completed slot done }
    if P.opCount e.network = some done ∧ e.instanceNo = 0 then
      some (s'.goto w i (.verify []), [.count i w])
    else some (s'.goto w i (.give 0), [.count i w])
  | .verify vals =>
    match (P.outputs e.network)[vals.length]? with
    | some l => some (s.goto w i (.verify (vals ++ [s.mem l])), [])
    | none =>
      some ({ s with captured := Function.update s.captured e.network (some vals) }.goto w i
        (.give 0), [.capture i w])
  | .give k =>
    if k < e.nFanout then
      some ({ s with permits := Function.update s.permits i (giveSem P.semLimit (s.permits i)) }.goto
        w i (.give (k + 1)), [])
    else some (s.goto w (i + 1) .scan, [])

/-- The next step of a worker; `none` when it is blocked or has finished its scan. -/
def stepWorker (P : Program τ Loc Val) (w : ℕ) (s : State Loc Val) :
    Option (State Loc Val × List Event) :=
  if s.halted then none
  else
    match P.workers[w]?, P.table[(s.threads w).i]? with
    | some wa, some e => stepEntry P w wa (s.threads w).i e s
    | _, _ => none

/-- The runs of the walker. -/
abbrev Program.Run (P : Program τ Loc Val) : List Event → State Loc Val → Prop :=
  Interleaving.Run (stepWorker P) P.start

/-! ### A small binary -/

omit [DecidableEq Loc] in
/-- The small workload with its two workers. Its input is location `0`, the value between the
two ops location `1` and its output location `2`. -/
def headProgram : Program ℕ ℕ ℕ where
  table := headTable
  workers := [⟨"rvv", 1, 0, false⟩, ⟨"scalar", 0, 1, false⟩]
  kinds := ["rvv", "scalar"]
  opCount := fun net => if net = "mlp" then some 2 else none
  semLimit := zephyrLimit
  reads := fun e => [e.dispatchId.toNat]
  writes := fun e => [e.dispatchId.toNat + 1]
  kernel := fun _ vals _ => vals.sum + 1
  outputs := fun _ => [2]
  init := fun _ => 5

/-- An order of its steps: the first worker, then the second. -/
def headOrder : List ℕ := List.replicate 15 0 ++ List.replicate 17 1

example : (Interleaving.follow (stepWorker headProgram) headOrder ([], headProgram.start)).map
    (fun r => (r.1, r.2.captured "mlp")) =
      some ([.start 0 0, .finish 0 0, .count 0 0, .start 1 1, .finish 1 1, .count 1 1,
        .capture 1 1], some [7]) := by
  decide

/-! ### What a step can do -/

/-- The steps of worker `w` in its iteration for entry `e` at position `i`, one case for each
branch. -/
inductive StepCase (P : Program τ Loc Val) (w : ℕ) (wa : Worker) (i : ℕ) (e : XpurtEntry τ)
    (s : State Loc Val) : State Loc Val → List Event → Prop
  | claim (ht : s.threads w = ⟨i, .scan⟩) (hclaim : wa.Claims e) :
      StepCase P w wa i e s (s.goto w i (.wait 0)) []
  | skip (ht : s.threads w = ⟨i, .scan⟩) (hclaim : ¬wa.Claims e) :
      StepCase P w wa i e s (s.goto w (i + 1) .scan) []
  | take {k p : ℕ} (ht : s.threads w = ⟨i, .wait k⟩) (hk : e.takes[k]? = some p)
      (hpos : s.permits p ≠ 0) :
      StepCase P w wa i e s ({ s with
        permits := Function.update s.permits p (s.permits p - 1) }.goto w i (.wait (k + 1))) []
  | taken {k : ℕ} (ht : s.threads w = ⟨i, .wait k⟩) (hk : e.takes.length ≤ k) :
      StepCase P w wa i e s (s.goto w i .gate) []
  | pass (ht : s.threads w = ⟨i, .gate⟩) (hno : P.opCount e.network = none ∨ e.dispatchId < 0) :
      StepCase P w wa i e s (s.goto w i (.give 0)) [.start i w, .finish i w]
  | enter (ht : s.threads w = ⟨i, .gate⟩) (hop : P.opCount e.network ≠ none)
      (hid : 0 ≤ e.dispatchId) : StepCase P w wa i e s (s.goto w i (.lock 0)) []
  | lock {k : ℕ} {h : ℤ} (ht : s.threads w = ⟨i, .lock k⟩) (hk : e.lockOrder[k]? = some h)
      (hfree : s.holder h = none) :
      StepCase P w wa i e s ({ s with
        holder := Function.update s.holder h (some w) }.goto w i (.lock (k + 1))) []
  | run {k : ℕ} (ht : s.threads w = ⟨i, .lock k⟩) (hk : e.lockOrder.length ≤ k)
      (himpl : e.impl ∈ P.kinds) :
      StepCase P w wa i e s (s.goto w i (.load [])) [.start i w]
  | halt {k : ℕ} (ht : s.threads w = ⟨i, .lock k⟩) (hk : e.lockOrder.length ≤ k)
      (himpl : e.impl ∉ P.kinds) : StepCase P w wa i e s { s with halted := true } []
  | load {vals : List Val} {l : Loc} (ht : s.threads w = ⟨i, .load vals⟩)
      (hl : (P.reads e)[vals.length]? = some l) :
      StepCase P w wa i e s (s.goto w i (.load (vals ++ [s.mem l]))) []
  | loaded {vals : List Val} (ht : s.threads w = ⟨i, .load vals⟩)
      (hl : (P.reads e).length ≤ vals.length) :
      StepCase P w wa i e s (s.goto w i (.store vals 0)) []
  | store {vals : List Val} {k : ℕ} {l : Loc} (ht : s.threads w = ⟨i, .store vals k⟩)
      (hl : (P.writes e)[k]? = some l) :
      StepCase P w wa i e s ({ s with
        mem := Function.update s.mem l (P.kernel e vals k) }.goto w i (.store vals (k + 1))) []
  | stored {vals : List Val} {k : ℕ} (ht : s.threads w = ⟨i, .store vals k⟩)
      (hl : (P.writes e).length ≤ k) :
      StepCase P w wa i e s (s.goto w i (.unlock e.lockOrder.length)) [.finish i w]
  | unlock {k : ℕ} {h : ℤ} (ht : s.threads w = ⟨i, .unlock (k + 1)⟩)
      (hk : e.lockOrder[k]? = some h) :
      StepCase P w wa i e s ({ s with
        holder := Function.update s.holder h none }.goto w i (.unlock k)) []
  | unlocked (ht : s.threads w = ⟨i, .unlock 0⟩) :
      StepCase P w wa i e s (s.goto w i .count) []
  | countLast (ht : s.threads w = ⟨i, .count⟩)
      (hlast : P.opCount e.network = some (s.completed (e.network, e.instanceNo) + 1))
      (hfirst : e.instanceNo = 0) :
      StepCase P w wa i e s ({ s with
        completed := Function.update s.completed (e.network, e.instanceNo)
          (s.completed (e.network, e.instanceNo) + 1) }.goto w i (.verify [])) [.count i w]
  | count (ht : s.threads w = ⟨i, .count⟩)
      (hlast : ¬(P.opCount e.network = some (s.completed (e.network, e.instanceNo) + 1) ∧
        e.instanceNo = 0)) :
      StepCase P w wa i e s ({ s with
        completed := Function.update s.completed (e.network, e.instanceNo)
          (s.completed (e.network, e.instanceNo) + 1) }.goto w i (.give 0)) [.count i w]
  | verify {vals : List Val} {l : Loc} (ht : s.threads w = ⟨i, .verify vals⟩)
      (hl : (P.outputs e.network)[vals.length]? = some l) :
      StepCase P w wa i e s (s.goto w i (.verify (vals ++ [s.mem l]))) []
  | capture {vals : List Val} (ht : s.threads w = ⟨i, .verify vals⟩)
      (hl : (P.outputs e.network).length ≤ vals.length) :
      StepCase P w wa i e s ({ s with
        captured := Function.update s.captured e.network (some vals) }.goto w i (.give 0))
        [.capture i w]
  | give {k : ℕ} (ht : s.threads w = ⟨i, .give k⟩) (hk : k < e.nFanout) :
      StepCase P w wa i e s ({ s with
        permits := Function.update s.permits i (giveSem P.semLimit (s.permits i)) }.goto w i
          (.give (k + 1))) []
  | next {k : ℕ} (ht : s.threads w = ⟨i, .give k⟩) (hk : e.nFanout ≤ k) :
      StepCase P w wa i e s (s.goto w (i + 1) .scan) []

variable {P : Program τ Loc Val} {w : ℕ} {s s' : State Loc Val} {evs : List Event}

/-- A step in an iteration is one of the cases. -/
private theorem stepCase_of_stepEntry {wa : Worker} {i : ℕ} {e : XpurtEntry τ}
    (hi : (s.threads w).i = i) (h : stepEntry P w wa i e s = some (s', evs)) :
    StepCase P w wa i e s s' evs := by
  have ht : s.threads w = ⟨i, (s.threads w).phase⟩ := by
    rw [← hi]
  unfold stepEntry at h
  split at h
  next hphase =>
    rw [hphase] at ht
    split_ifs at h with hclaim <;> cases h
    · exact .claim ht hclaim
    · exact .skip ht hclaim
  next k hphase =>
    rw [hphase] at ht
    split at h
    next p hk =>
      split_ifs at h with hpos
      cases h
      exact .take ht hk hpos
    next hk =>
      cases h
      exact .taken ht (List.getElem?_eq_none_iff.mp hk)
  next hphase =>
    rw [hphase] at ht
    split_ifs at h with hno <;> cases h
    · exact .pass ht hno
    · rw [not_or, not_lt] at hno
      exact .enter ht hno.1 hno.2
  next k hphase =>
    rw [hphase] at ht
    split at h
    next hart hk =>
      split_ifs at h with hfree
      cases h
      exact .lock ht hk (not_not.mp hfree)
    next hk =>
      split_ifs at h with himpl <;> cases h
      · exact .run ht (List.getElem?_eq_none_iff.mp hk) himpl
      · exact .halt ht (List.getElem?_eq_none_iff.mp hk) himpl
  next vals hphase =>
    rw [hphase] at ht
    split at h <;> cases h
    next l hl => exact .load ht hl
    next hl => exact .loaded ht (List.getElem?_eq_none_iff.mp hl)
  next vals k hphase =>
    rw [hphase] at ht
    split at h <;> cases h
    next l hl => exact .store ht hl
    next hl => exact .stored ht (List.getElem?_eq_none_iff.mp hl)
  next k hphase =>
    rw [hphase] at ht
    split at h
    next =>
      cases h
      exact .unlocked ht
    next k =>
      split at h
      next hart hk =>
        cases h
        exact .unlock ht hk
      next => cases h
  next hphase =>
    rw [hphase] at ht
    simp only at h
    split_ifs at h with hlast <;> cases h
    · exact .countLast ht hlast.1 hlast.2
    · exact .count ht hlast
  next vals hphase =>
    rw [hphase] at ht
    split at h <;> cases h
    next l hl => exact .verify ht hl
    next hl => exact .capture ht (List.getElem?_eq_none_iff.mp hl)
  next k hphase =>
    rw [hphase] at ht
    split_ifs at h with hk <;> cases h
    · exact .give ht hk
    · exact .next ht (not_lt.mp hk)

/-- A step of a worker is one of the cases, for the entry at which its scan stands. -/
theorem stepCase_of_stepWorker (h : stepWorker P w s = some (s', evs)) :
    s.halted = false ∧ ∃ wa e, P.workers[w]? = some wa ∧
      P.table[(s.threads w).i]? = some e ∧ StepCase P w wa (s.threads w).i e s s' evs := by
  unfold stepWorker at h
  split_ifs at h with hhalt
  split at h
  next wa e hwa he =>
    exact ⟨by simpa using hhalt, wa, e, hwa, he, stepCase_of_stepEntry rfl h⟩
  next => cases h

end ModelBlaster

/-! ## Safety of the walker -/

namespace ModelBlaster

open List Function

variable {τ Loc Val : Type} {P : Program τ Loc Val}

/-! ### Progress of a worker -/

/-- The position of a phase in an iteration. -/
def Phase.rank : Phase Val → ℕ
  | .scan => 0
  | .wait _ => 1
  | .gate => 2
  | .lock _ => 3
  | .load _ => 4
  | .store _ _ => 5
  | .unlock _ => 6
  | .count => 7
  | .verify _ => 8
  | .give _ => 9

/-- The worker has come to the phase of rank `r` of the iteration at position `i`, or farther. -/
def Thread.Past (t : Thread Val) (i r : ℕ) : Prop :=
  i < t.i ∨ (t.i = i ∧ r ≤ t.phase.rank)

/-- The worker has taken the semaphore at position `j` in the iteration at position `i`. -/
def Thread.HasTaken (t : Thread Val) (i j : ℕ) : Prop :=
  i < t.i ∨ (t.i = i ∧ match t.phase with
    | .scan => False
    | .wait k => j < k
    | _ => True)

/-- The worker claims the entry at a position. -/
def Program.Owns (P : Program τ Loc Val) (w i : ℕ) : Prop :=
  ∃ wa e, P.workers[w]? = some wa ∧ P.table[i]? = some e ∧ wa.Claims e

/-- The owner of an entry has come to giving its permits. -/
def Program.Released (P : Program τ Loc Val) (s : State Loc Val) (p : ℕ) : Prop :=
  ∃ v, P.Owns v p ∧ (s.threads v).Past p 9

variable {t : Thread Val} {r v j p : ℕ} {h : ℤ}

/-- Having come to a phase, a worker has come to the earlier ones. -/
theorem Thread.Past.mono {i r' : ℕ} (h : t.Past i r) (hr : r' ≤ r) :
    t.Past i r' := by
  rcases h with hlt | ⟨heq, hle⟩
  · exact Or.inl hlt
  · exact Or.inr ⟨heq, hr.trans hle⟩

/-- Behind the semaphores, all of them are taken. -/
theorem Thread.Past.hasTaken {i : ℕ} (h : t.Past i r) (hr : 2 ≤ r) (j : ℕ) :
    t.HasTaken i j := by
  rcases h.mono hr with hlt | ⟨heq, hrank⟩
  · exact Or.inl hlt
  · refine Or.inr ⟨heq, ?_⟩
    revert hrank
    cases t.phase <;> simp [Phase.rank]

@[simp]
theorem State.goto_threads (s : State Loc Val) (w i : ℕ) (phase : Phase Val) :
    (s.goto w i phase).threads = Function.update s.threads w ⟨i, phase⟩ := rfl

variable [DecidableEq Loc] {w i : ℕ} {wa : Worker} {e : XpurtEntry τ} {s s' : State Loc Val}
  {tr evs : List Event}

/-- A step moves its own worker only. -/
theorem StepCase.threads_of_ne (h : StepCase P w wa i e s s' evs) (hv : v ≠ w) :
    s'.threads v = s.threads v := by
  cases h <;> first | exact update_of_ne hv _ _ | rfl

/-- A step moves its worker forward. -/
theorem StepCase.forward (h : StepCase P w wa i e s s' evs) :
    (s.threads w).i < (s'.threads w).i ∨ ((s.threads w).i = (s'.threads w).i ∧
      (s.threads w).phase.rank ≤ (s'.threads w).phase.rank) := by
  cases h with
  | halt ht hk himpl => exact Or.inr ⟨rfl, le_rfl⟩
  | _ ht => simp [ht, Phase.rank, State.goto]

/-- Workers do not go back. -/
theorem StepCase.past (h : StepCase P w wa i e s s' evs) (hpast : (s.threads v).Past j r) :
    (s'.threads v).Past j r := by
  by_cases hv : v = w
  · subst hv
    have := h.forward
    unfold Thread.Past at hpast ⊢
    omega
  · rwa [h.threads_of_ne hv]

/-- Entries stay released. -/
theorem StepCase.released (h : StepCase P w wa i e s s' evs) (hp : P.Released s p) :
    P.Released s' p := by
  obtain ⟨v, hown, hpast⟩ := hp
  exact ⟨v, hown, h.past hpast⟩

/-- What every step of the walker preserves holds after every run. -/
theorem Program.Run.invariant {I : List Event → State Loc Val → Prop} (hinit : I [] P.start)
    (hstep : ∀ tr evs s s' w wa i e, P.Run tr s → P.Run (tr ++ evs) s' → I tr s →
      P.workers[w]? = some wa → P.table[i]? = some e → (s.threads w).i = i →
      StepCase P w wa i e s s' evs → I (tr ++ evs) s')
    (h : P.Run tr s) : I tr s := by
  refine Interleaving.Run.invariant hinit (fun tr evs s s' w hrun hI hnext => ?_) h
  obtain ⟨-, wa, e, hwa, he, hcase⟩ := stepCase_of_stepWorker hnext
  exact hstep tr evs s s' w wa _ e hrun (hrun.step hnext) hI hwa he rfl hcase

/-- A worker is busy only with entries that it claims. -/
theorem owns_of_run (h : P.Run tr s) :
    ∀ w, (s.threads w).phase ≠ .scan → P.Owns w (s.threads w).i := by
  refine h.invariant (I := fun _ s => ∀ w, (s.threads w).phase ≠ .scan → P.Owns w (s.threads w).i)
    (fun w hscan => absurd rfl hscan) ?_
  intro tr evs s s' w wa i e _ _ hI hwa he hi hcase v hv
  by_cases hvw : v = w
  swap
  · rw [hcase.threads_of_ne hvw] at hv ⊢
    exact hI v hv
  subst hvw
  have hown : (s.threads v).phase ≠ .scan → P.Owns v i := hi ▸ hI v
  cases hcase with
  | claim ht hclaim => simpa [State.goto] using ⟨wa, e, hwa, he, hclaim⟩
  | skip => simp [State.goto] at hv
  | next => simp [State.goto] at hv
  | halt ht => exact hI v hv
  | _ ht => simpa [State.goto] using hown (by simp [ht])

omit [DecidableEq Loc] in
/-- The worker at hand claims the entry at hand if it owns it. -/
theorem Program.Owns.claims (hwa : P.workers[w]? = some wa) (he : P.table[i]? = some e)
    (h : P.Owns w i) : wa.Claims e := by
  obtain ⟨wa', e', hwa', he', hclaim⟩ := h
  rw [hwa] at hwa'
  rw [he] at he'
  cases hwa'
  cases he'
  exact hclaim

/-! ### Permits -/

/-- When a step takes a semaphore, or passes by it. -/
theorem StepCase.hasTaken (h : StepCase P w wa i e s s' evs) {k : ℕ}
    (htaken : (s'.threads w).HasTaken j k) : (s.threads w).HasTaken j k ∨
      (j = i ∧ (¬wa.Claims e ∨ e.takes.length ≤ k ∨
        ∃ p, e.takes[k]? = some p ∧ s.permits p ≠ 0 ∧ s.threads w = ⟨i, .wait k⟩ ∧
          s'.permits = Function.update s.permits p (s.permits p - 1))) := by
  cases h with
  | skip ht hclaim =>
    simp only [Thread.HasTaken, State.goto_threads, update_self, ht] at htaken ⊢
    rcases htaken with hlt | ⟨-, hfalse⟩
    · rcases Nat.lt_succ_iff_lt_or_eq.mp hlt with hlt | heq
      · exact Or.inl (Or.inl hlt)
      · exact Or.inr ⟨heq, Or.inl hclaim⟩
    · exact absurd hfalse id
  | @take k' p ht hk hpos =>
    simp only [Thread.HasTaken, State.goto_threads, update_self, ht] at htaken ⊢
    rcases htaken with hlt | ⟨rfl, hlt⟩
    · exact Or.inl (Or.inl hlt)
    · rcases Nat.lt_succ_iff_lt_or_eq.mp hlt with hlt | rfl
      · exact Or.inl (Or.inr ⟨rfl, hlt⟩)
      · exact Or.inr ⟨rfl, Or.inr (Or.inr ⟨p, hk, hpos, rfl, rfl⟩)⟩
  | taken ht hk =>
    simp only [Thread.HasTaken, State.goto_threads, update_self, ht] at htaken ⊢
    grind
  | halt => exact Or.inl htaken
  | _ ht =>
    simp only [Thread.HasTaken, State.goto_threads, update_self, ht] at htaken ⊢
    grind

/-- Where the permits of the semaphores come from. -/
structure Permitted (P : Program τ Loc Val) (s : State Loc Val) : Prop where
  /-- Only a released entry has permits. -/
  of_permits : ∀ p, s.permits p ≠ 0 → P.Released s p
  /-- Only permits of released entries were taken. -/
  of_taken : ∀ v j k x p, P.Owns v j → P.table[j]? = some x → (s.threads v).HasTaken j k →
    x.takes[k]? = some p → P.Released s p

/-- A step gives permits of its own entry only, behind the kernel. -/
theorem StepCase.permits (h : StepCase P w wa i e s s' evs) (hp : s'.permits p ≠ 0) :
    s.permits p ≠ 0 ∨ (p = i ∧ (s'.threads w).Past i 9 ∧ (s.threads w).phase ≠ .scan) := by
  cases h with
  | @take k p' ht hk hpos =>
    simp only [State.goto, update_apply] at hp
    split_ifs at hp with heq
    · rw [heq]
      exact Or.inl hpos
    · exact Or.inl hp
  | give ht hk =>
    simp only [State.goto, update_apply] at hp
    split_ifs at hp with heq
    · refine Or.inr ⟨heq, ?_, by simp [ht]⟩
      simp [Thread.Past, State.goto, Phase.rank]
    · exact Or.inl hp
  | _ => exact Or.inl hp

/-- Permits come from released entries. -/
theorem permitted_of_run (h : P.Run tr s) : Permitted P s := by
  refine h.invariant (I := fun _ s => Permitted P s) ⟨fun p hp => absurd rfl hp, ?_⟩ ?_
  · intro v j k x p _ _ htaken
    rcases htaken with hlt | ⟨-, hfalse⟩
    · exact absurd hlt (Nat.not_lt_zero j)
    · exact absurd hfalse id
  intro tr evs s s' w wa i e hrun _ hI hwa he hi hcase
  constructor
  · intro p hp
    rcases hcase.permits hp with hold | ⟨rfl, hpast, hbusy⟩
    · exact hcase.released (hI.of_permits p hold)
    · exact ⟨w, hi ▸ owns_of_run hrun w hbusy, hpast⟩
  · intro v j k x p hown hx htaken hp
    by_cases hvw : v = w
    swap
    · rw [hcase.threads_of_ne hvw] at htaken
      exact hcase.released (hI.of_taken v j k x p hown hx htaken hp)
    subst hvw
    rcases hcase.hasTaken htaken with hold | ⟨rfl, hnew⟩
    · exact hcase.released (hI.of_taken v j k x p hown hx hold hp)
    rw [he] at hx
    cases hx
    rcases hnew with hclaim | hlen | ⟨p', hp', hpos, -⟩
    · exact absurd (hown.claims hwa he) hclaim
    · rw [getElem?_eq_none hlen] at hp
      cases hp
    · rw [hp'] at hp
      cases hp
      exact hcase.released (hI.of_permits p hpos)

/-! ### Locks -/

/-- The locks held in a phase, out of those of the entry. -/
def Phase.locks (order : List ℤ) : Phase Val → List ℤ
  | .lock k => order.take k
  | .load _ => order
  | .store _ _ => order
  | .unlock k => order.take k
  | _ => []

/-- A worker at this point holds the lock of the hart. -/
def Program.Holds (P : Program τ Loc Val) (t : Thread Val) (h : ℤ) : Prop :=
  ∃ e, P.table[t.i]? = some e ∧ h ∈ t.phase.locks e.lockOrder

/-- The locks of an entry are those of its harts. -/
@[simp]
theorem XpurtEntry.mem_lockOrder {e : XpurtEntry τ} : h ∈ e.lockOrder ↔ h ∈ e.harts :=
  mem_insertionSort _

/-- A worker takes no lock twice for an entry with distinct harts. -/
theorem XpurtEntry.nodup_lockOrder {e : XpurtEntry τ} (h : e.harts.Nodup) : e.lockOrder.Nodup :=
  (perm_insertionSort _ _).nodup_iff.mpr h

omit [DecidableEq Loc] in
private theorem holds_iff (he : P.table[t.i]? = some e) :
    P.Holds t h ↔ h ∈ t.phase.locks e.lockOrder := by
  constructor
  · rintro ⟨e', he', hmem⟩
    rw [he] at he'
    cases he'
    exact hmem
  · exact fun hmem => ⟨e, he, hmem⟩

/-- A step takes one free lock, releases one of its locks, or leaves the locks alone. -/
theorem StepCase.holder (h : StepCase P w wa i e s s' evs) (he : P.table[i]? = some e)
    (hnodup : e.harts.Nodup) :
    (s'.holder = s.holder ∧ ∀ x, P.Holds (s'.threads w) x ↔ P.Holds (s.threads w) x) ∨
      (∃ x, s.holder x = none ∧ s'.holder = Function.update s.holder x (some w) ∧
        ∀ y, P.Holds (s'.threads w) y ↔ P.Holds (s.threads w) y ∨ y = x) ∨
      ∃ x, P.Holds (s.threads w) x ∧ s'.holder = Function.update s.holder x none ∧
        ∀ y, P.Holds (s'.threads w) y ↔ P.Holds (s.threads w) y ∧ y ≠ x := by
  have hsorted := e.nodup_lockOrder hnodup
  cases h with
  | @lock k x ht hk hfree =>
    refine Or.inr (Or.inl ⟨x, hfree, rfl, fun y => ?_⟩)
    rw [State.goto_threads, update_self, ht, holds_iff he, holds_iff he]
    show y ∈ e.lockOrder.take (k + 1) ↔ y ∈ e.lockOrder.take k ∨ y = x
    rw [take_add_one, hk, mem_append]
    simp
  | @unlock k x ht hk =>
    refine Or.inr (Or.inr ⟨x, ?_, rfl, fun y => ?_⟩)
    · rw [ht, holds_iff he]
      show x ∈ e.lockOrder.take (k + 1)
      rw [take_add_one, hk]
      simp
    · rw [State.goto_threads, update_self, ht, holds_iff he, holds_iff he]
      show y ∈ e.lockOrder.take k ↔ y ∈ e.lockOrder.take (k + 1) ∧ y ≠ x
      have hdistinct := hsorted.sublist (take_sublist (k + 1) e.lockOrder)
      rw [take_add_one, hk, Option.toList_some, nodup_append] at hdistinct
      rw [take_add_one, hk, Option.toList_some, mem_append, mem_singleton]
      constructor
      · exact fun hy => ⟨Or.inl hy, hdistinct.2.2 y hy x (mem_singleton_self x)⟩
      · rintro ⟨hy | heq, hne⟩
        · exact hy
        · exact absurd heq hne
  | halt => exact Or.inl ⟨rfl, fun x => Iff.rfl⟩
  | skip ht | next ht =>
    refine Or.inl ⟨rfl, fun x => ?_⟩
    rw [State.goto_threads, update_self, ht]
    simp [Program.Holds, Phase.locks]
  | run ht hk | stored ht hk =>
    refine Or.inl ⟨rfl, fun x => ?_⟩
    rw [State.goto_threads, update_self, ht, holds_iff he, holds_iff he]
    simp [Phase.locks, take_of_length_le, *]
  | _ ht =>
    refine Or.inl ⟨rfl, fun x => ?_⟩
    rw [State.goto_threads, update_self, ht, holds_iff he, holds_iff he]
    simp [Phase.locks]

/-- A lock is held by the worker that took it and has not released it. -/
theorem holder_iff_of_run (hnodup : ∀ e ∈ P.table, e.harts.Nodup) (h : P.Run tr s) :
    ∀ x v, s.holder x = some v ↔ P.Holds (s.threads v) x := by
  refine h.invariant (I := fun _ s => ∀ x v, s.holder x = some v ↔ P.Holds (s.threads v) x) ?_ ?_
  · intro x v
    exact iff_of_false (by simp [Program.start]) (by simp [Program.start, Program.Holds, Phase.locks])
  intro tr evs s s' w wa i e _ _ hI _ he _ hcase x v
  have hother : v ≠ w → P.Holds (s'.threads v) = P.Holds (s.threads v) :=
    fun hv => by rw [hcase.threads_of_ne hv]
  rcases hcase.holder he (hnodup e (mem_of_getElem? he)) with
    ⟨hsame, hlocks⟩ | ⟨y, hfree, hheld, hlocks⟩ | ⟨y, hmine, hheld, hlocks⟩
  · rw [hsame, hI]
    by_cases hv : v = w
    · rw [hv, hlocks]
    · rw [hother hv]
  · rw [hheld, update_apply]
    have hnone : ∀ u, ¬P.Holds (s.threads u) y := fun u hu => by
      simp [(hI y u).mpr hu] at hfree
    by_cases hv : v = w
    · subst hv
      rw [hlocks]
      split_ifs with hxy
      · exact iff_of_true rfl (Or.inr hxy)
      · rw [hI, or_iff_left hxy]
    · rw [hother hv]
      split_ifs with hxy
      · exact iff_of_false (by simpa using Ne.symm hv) (hxy ▸ hnone v)
      · exact hI x v
  · rw [hheld, update_apply]
    by_cases hv : v = w
    · subst hv
      rw [hlocks]
      split_ifs with hxy
      · exact iff_of_false (by simp) fun hx => hx.2 hxy
      · rw [hI, and_iff_left hxy]
    · rw [hother hv]
      split_ifs with hxy
      · refine iff_of_false (by simp) fun hx => hv ?_
        -- The lock has one holder.
        rw [← hI, hxy, (hI y w).mpr hmine] at hx
        exact (Option.some.inj hx).symm
      · exact hI x v

/-! ### Events -/

/-- Exactly one worker owns an entry, as the claim-coverage audit checks. -/
def Program.Audited (P : Program τ Loc Val) : Prop :=
  ∀ e ∈ P.table, claimants P.workers e = 1

omit [DecidableEq Loc] in
/-- An audited entry has an owner. -/
theorem Program.exists_owns (haudit : P.Audited) (hj : j < P.table.length) :
    ∃ w, P.Owns w j := by
  have hone := haudit P.table[j] (getElem_mem hj)
  have hpos : 0 < claimants P.workers P.table[j] := by omega
  obtain ⟨wa, hwa, hclaim⟩ := countP_pos_iff.mp hpos
  obtain ⟨w, hw⟩ := mem_iff_getElem?.mp hwa
  exact ⟨w, wa, _, hw, getElem?_eq_getElem hj, of_decide_eq_true hclaim⟩

omit [DecidableEq Loc] in
/-- An audited entry has one owner at most. -/
theorem Program.Owns.unique (haudit : P.Audited) {w : ℕ} (hv : P.Owns v j) (hw : P.Owns w j) :
    v = w := by
  have hle : ∀ {v w : ℕ}, P.Owns v j → P.Owns w j → w ≤ v := by
    rintro v w ⟨wv, e, hwv, he, hcv⟩ ⟨ww, e', hww, he', hcw⟩
    rw [he] at he'
    cases he'
    by_contra hlt
    rw [not_le] at hlt
    -- One claimant stands before position `w` and one behind it.
    have hfirst : 0 < claimants (P.workers.take w) e :=
      countP_pos_iff.mpr ⟨wv, mem_of_getElem? (i := v) (by rwa [getElem?_take_of_lt hlt]),
        decide_eq_true hcv⟩
    have hsecond : 0 < claimants (P.workers.drop w) e :=
      countP_pos_iff.mpr ⟨ww, mem_of_getElem? (i := 0) (by rwa [getElem?_drop]),
        decide_eq_true hcw⟩
    have hone := haudit e (mem_of_getElem? he)
    rw [← take_append_drop w P.workers, claimants, countP_append] at hone
    unfold claimants at hfirst hsecond
    omega
  exact le_antisymm (hle hw hv) (hle hv hw)

/-- A worker that newly comes to a phase does so in the entry at hand, or passes an entry that it
does not claim. -/
theorem StepCase.past_cases (h : StepCase P w wa i e s s' evs) (hr : 0 < r ∧ r ≤ 9)
    (hpast : (s'.threads w).Past j r) : (s.threads w).Past j r ∨
      (j = i ∧ (¬wa.Claims e ∨
        ((s'.threads w).i = i ∧ (s.threads w).phase.rank < r ∧
          r ≤ (s'.threads w).phase.rank))) := by
  cases h with
  | skip ht hclaim =>
    simp only [Thread.Past, State.goto_threads, update_self, ht] at hpast ⊢
    grind [Phase.rank]
  | halt => exact Or.inl hpast
  | _ ht =>
    simp only [Thread.Past, State.goto_threads, update_self, ht] at hpast ⊢
    grind [Phase.rank]

/-- A step within an iteration from below rank `r` to it. -/
def Reaches (w i r : ℕ) (s s' : State Loc Val) : Prop :=
  (s.threads w).phase.rank < r ∧ (s'.threads w).i = i ∧ r ≤ (s'.threads w).phase.rank

/-- The step that starts an entry. -/
theorem StepCase.start_mem_iff (h : StepCase P w wa i e s s' evs) :
    .start j v ∈ evs ↔ v = w ∧ j = i ∧ Reaches w i 4 s s' := by
  cases h <;> simp [Reaches, State.goto, Phase.rank, *] <;> tauto

/-- The step that finishes an entry. -/
theorem StepCase.finish_mem_iff (h : StepCase P w wa i e s s' evs) :
    .finish j v ∈ evs ↔ v = w ∧ j = i ∧ Reaches w i 6 s s' := by
  cases h <;> simp [Reaches, State.goto, Phase.rank, *] <;> tauto

/-- If a kind of event marks that a worker comes to a phase in some of its entries, then it has
happened in a run iff the worker has come to that phase. -/
theorem event_mem_iff (mk : ℕ → ℕ → Event) (hr : 0 < r ∧ r ≤ 9) (C : ℕ → Prop)
    (hmk : ∀ tr evs s s' w wa i e, P.Run tr s → P.table[i]? = some e → (s.threads w).i = i →
      StepCase P w wa i e s s' evs →
      ∀ j v, mk j v ∈ evs ↔ v = w ∧ j = i ∧ C i ∧ Reaches w i r s s') (h : P.Run tr s) (j v : ℕ) :
    mk j v ∈ tr ↔ P.Owns v j ∧ C j ∧ (s.threads v).Past j r := by
  refine h.invariant
    (I := fun tr s => ∀ j v, mk j v ∈ tr ↔ P.Owns v j ∧ C j ∧ (s.threads v).Past j r) ?_ ?_ j v
  · intro j v
    refine iff_of_false not_mem_nil ?_
    rintro ⟨-, -, hlt | ⟨-, hle⟩⟩
    · exact absurd hlt (Nat.not_lt_zero j)
    · exact absurd hle (Nat.not_le_of_lt hr.1)
  intro tr evs s s' w wa i e hrun hrun' hI hwa he hi hcase j v
  rw [mem_append, hI, hmk tr evs s s' w wa i e hrun he hi hcase]
  constructor
  · rintro (⟨hown, hC, hpast⟩ | ⟨rfl, rfl, hC, hlow, hi', hhigh⟩)
    · exact ⟨hown, hC, hcase.past hpast⟩
    · refine ⟨?_, hC, Or.inr ⟨hi', hhigh⟩⟩
      have hbusy := owns_of_run hrun' v
      rw [hi'] at hbusy
      apply hbusy
      intro hscan
      rw [hscan] at hhigh
      exact absurd hhigh (Nat.not_le_of_lt hr.1)
  · rintro ⟨hown, hC, hpast⟩
    by_cases hv : v = w
    swap
    · rw [hcase.threads_of_ne hv] at hpast
      exact Or.inl ⟨hown, hC, hpast⟩
    subst hv
    rcases hcase.past_cases hr hpast with hold | ⟨rfl, hclaim | ⟨hi', hlow, hhigh⟩⟩
    · exact Or.inl ⟨hown, hC, hold⟩
    · exact absurd (hown.claims hwa he) hclaim
    · exact Or.inr ⟨rfl, rfl, hC, hlow, hi', hhigh⟩

/-- Such an event happens at most once for every entry. -/
theorem nodup_events (haudit : P.Audited) (mk : ℕ → ℕ → Event) (hr : 0 < r ∧ r ≤ 9) (C : ℕ → Prop)
    (hmk : ∀ tr evs s s' w wa i e, P.Run tr s → P.table[i]? = some e → (s.threads w).i = i →
      StepCase P w wa i e s s' evs →
      ∀ j v, mk j v ∈ evs ↔ v = w ∧ j = i ∧ C i ∧ Reaches w i r s s') {f : Event → Option ℕ}
    (hf : ∀ ev j, f ev = some j ↔ ∃ v, ev = mk j v)
    (hone : ∀ s s' evs w wa i e, StepCase P w wa i e s s' evs → (evs.filterMap f).length ≤ 1)
    (h : P.Run tr s) : (tr.filterMap f).Nodup := by
  have hmem : ∀ {evs : List Event} {j}, j ∈ evs.filterMap f ↔ ∃ v, mk j v ∈ evs := by
    intro evs j
    rw [mem_filterMap]
    constructor
    · rintro ⟨ev, hev, hsome⟩
      obtain ⟨v, rfl⟩ := (hf ev j).mp hsome
      exact ⟨v, hev⟩
    · rintro ⟨v, hv⟩
      exact ⟨mk j v, hv, (hf _ j).mpr ⟨v, rfl⟩⟩
  refine h.invariant (I := fun tr _ => (tr.filterMap f).Nodup) nodup_nil ?_
  intro tr evs s s' w wa i e hrun hrun' hI _ he hi hcase
  rw [filterMap_append, nodup_append]
  refine ⟨hI, nodup_iff_count_le_one.mpr fun j => ?_, ?_⟩
  · exact count_le_length.trans (hone s s' evs w wa i e hcase)
  rintro j hj _ hj' rfl
  obtain ⟨v, hv⟩ := hmem.mp hj
  obtain ⟨w', hw'⟩ := hmem.mp hj'
  obtain ⟨rfl, rfl, -, hlow, -⟩ := (hmk tr evs s s' w wa i e hrun he hi hcase j w').mp hw'
  -- The entry at hand has one owner, who had not come to the phase.
  obtain ⟨hown, -, hpast⟩ := (event_mem_iff mk hr C hmk hrun j v).mp hv
  obtain ⟨hown', -⟩ := (event_mem_iff mk hr C hmk hrun' j w').mp (mem_append_right tr hw')
  rw [hown.unique haudit hown', Thread.Past] at hpast
  omega

/-- Who has started an entry. -/
theorem start_mem_iff (h : P.Run tr s) :
    .start j v ∈ tr ↔ P.Owns v j ∧ (s.threads v).Past j 4 := by
  have := event_mem_iff .start (r := 4) (by decide) (fun _ => True)
    (fun tr evs s s' w wa i e _ _ _ hcase j v => by simpa using hcase.start_mem_iff) h j v
  simpa using this

/-- Who has finished an entry. -/
theorem finish_mem_iff (h : P.Run tr s) :
    .finish j v ∈ tr ↔ P.Owns v j ∧ (s.threads v).Past j 6 := by
  have := event_mem_iff .finish (r := 6) (by decide) (fun _ => True)
    (fun tr evs s s' w wa i e _ _ _ hcase j v => by simpa using hcase.finish_mem_iff) h j v
  simpa using this

/-! ### Safety -/

/-- Somebody has started the entry. -/
def Started (tr : List Event) (j : ℕ) : Prop := ∃ v, .start j v ∈ tr

/-- Somebody has finished the entry. -/
def Finished (tr : List Event) (j : ℕ) : Prop := ∃ v, .finish j v ∈ tr

/-- The entry is started but not finished. -/
def Running (tr : List Event) (j : ℕ) : Prop := Started tr j ∧ ¬Finished tr j

/-- The entries that were started, once for every start. -/
def starts (tr : List Event) : List ℕ := tr.filterMap Event.started

/-- A released entry is finished. -/
theorem Program.Released.finished (hrun : P.Run tr s) (h : P.Released s p) :
    Finished tr p := by
  obtain ⟨v, hown, hpast⟩ := h
  exact ⟨v, (finish_mem_iff hrun).mpr ⟨hown, hpast.mono (by decide)⟩⟩

/-- The entries whose semaphores a started entry takes are finished. -/
theorem finished_of_started (hrun : P.Run tr s) (hj : .start j v ∈ tr) (he : P.table[j]? = some e)
    (hp : p ∈ e.takes) : Finished tr p := by
  obtain ⟨hown, hpast⟩ := (start_mem_iff hrun).mp hj
  obtain ⟨k, hk⟩ := mem_iff_getElem?.mp hp
  have htaken := hpast.hasTaken (by decide) k
  exact ((permitted_of_run hrun).of_taken v j k e p hown he htaken hk).finished hrun

/-- No entry is started twice. -/
theorem nodup_starts (haudit : P.Audited) (hrun : P.Run tr s) : (starts tr).Nodup := by
  refine nodup_events haudit .start (r := 4) (by decide) (fun _ => True) ?_ ?_ ?_ hrun
  · exact fun tr evs s s' w wa i e _ _ _ hcase j v => by simpa using hcase.start_mem_iff
  · rintro (_ | _ | _ | _) j <;> simp [Event.started]
  · intro s s' evs w wa i e hcase
    cases hcase <;> simp [filterMap_cons, Event.started]

/-- A running entry holds its locks. -/
theorem holder_of_running (hnodup : ∀ e ∈ P.table, e.harts.Nodup) (hrun : P.Run tr s)
    (hj : Running tr j) (he : P.table[j]? = some e) :
    ∃ v, (s.threads v).i = j ∧ ∀ x ∈ e.harts, s.holder x = some v := by
  obtain ⟨⟨v, hstart⟩, hfinish⟩ := hj
  obtain ⟨hown, hpast⟩ := (start_mem_iff hrun).mp hstart
  have hnot : ¬(s.threads v).Past j 6 :=
    fun hdone => hfinish ⟨v, (finish_mem_iff hrun).mpr ⟨hown, hdone⟩⟩
  have hi : (s.threads v).i = j := by
    unfold Thread.Past at hpast hnot
    omega
  have hphase : (s.threads v).phase.locks e.lockOrder = e.lockOrder := by
    rw [Thread.Past, hi] at hpast hnot
    revert hpast hnot
    cases (s.threads v).phase <;> simp [Phase.rank, Phase.locks]
  refine ⟨v, hi, fun x hx => ?_⟩
  rw [holder_iff_of_run hnodup hrun]
  refine ⟨e, by rw [hi]; exact he, ?_⟩
  rw [hphase]
  exact XpurtEntry.mem_lockOrder.mpr hx

omit [DecidableEq Loc] in
/-- The start-up audits the workers. -/
theorem audited_of_startUp {lim : Limits} {pools : List (List ℤ)}
    (h : startUp lim P.kinds P.table = .ok (P.workers, pools)) : P.Audited := by
  simp only [startUp, Fallible.bind_eq_ok_iff] at h
  obtain ⟨ws, -, r, haudit, pools', -, heq⟩ := h
  cases heq
  exact claimAudit_eq_ok_iff.mp ⟨r, haudit⟩

section Load

variable [LinearOrder τ] [Zero τ] [Add τ] {env : Env} {doc : Doc τ} {irs : PyDict String Ir}
  {reg : CoreRegistry} {slots : SlotKinds} {lim : Limits} {pools : List (List ℤ)}

/-- Whatever the order of their steps, the workers that run a table of the ingest start an entry
only once its dependencies are finished, start no entry twice, and run no two entries with a
common hart at a time. -/
theorem walker_safe (hload : load env doc irs reg slots = .ok P.table)
    (hstart : startUp lim P.kinds P.table = .ok (P.workers, pools)) (hrun : P.Run tr s) :
    (∀ j e, Started tr j → P.table[j]? = some e →
      (∀ d ∈ e.depsEntryIds, Finished tr d) ∧
        ∀ p : ℕ, e.timeDepEntryId = p → Finished tr p) ∧
    ((starts tr).Nodup ∧ ∀ j v w, .start j v ∈ tr → .start j w ∈ tr → v = w) ∧
    ∀ i j a b, Running tr i → Running tr j → i ≠ j → P.table[i]? = some a →
      P.table[j]? = some b → a.harts.Disjoint b.harts := by
  have hT := wellFormed_of_load hload
  have haudit := audited_of_startUp hstart
  refine ⟨?_, ⟨nodup_starts haudit hrun, ?_⟩, ?_⟩
  · rintro j e ⟨v, hj⟩ he
    refine ⟨fun d hd => ?_, fun p hp => ?_⟩
    · exact finished_of_started hrun hj he (mem_append_left _ hd)
    · -- The time dependency is taken on its own unless it is a data dependency as well.
      refine finished_of_started hrun hj he ?_
      rw [XpurtEntry.takes, hp, Int.toNat_natCast]
      by_cases hdup : p ∈ e.depsEntryIds
      · exact mem_append_left _ hdup
      · simp [hdup]
  · intro j v w hv hw
    exact ((start_mem_iff hrun).mp hv).1.unique haudit ((start_mem_iff hrun).mp hw).1
  · intro i j a b hi hj hne ha hb x hxa hxb
    obtain ⟨v, hv, hlocks⟩ := holder_of_running hT.harts_nodup hrun hi ha
    obtain ⟨w, hw, hlocks'⟩ := holder_of_running hT.harts_nodup hrun hj hb
    -- A common hart would have one holder, which is at one entry.
    have heq : v = w := by
      have := hlocks x hxa
      rw [hlocks' x hxb] at this
      exact (Option.some.inj this).symm
    apply hne
    rw [← hv, ← hw, heq]

end Load

/-- Behind its whole run, the small binary has started both entries, in order. -/
theorem walker_safe_head : ∃ tr s, headProgram.Run tr s ∧ starts tr = [0, 1] ∧
    ((∀ j e, Started tr j → headTable[j]? = some e →
      (∀ d ∈ e.depsEntryIds, Finished tr d) ∧
        ∀ p : ℕ, e.timeDepEntryId = p → Finished tr p) ∧
    ((starts tr).Nodup ∧ ∀ j v w, .start j v ∈ tr → .start j w ∈ tr → v = w) ∧
    ∀ i j a b, Running tr i → Running tr j → i ≠ j → headTable[i]? = some a →
      headTable[j]? = some b → a.harts.Disjoint b.harts) := by
  have hsome : (Interleaving.follow (stepWorker headProgram) headOrder
      ([], headProgram.start)).isSome := by decide
  obtain ⟨⟨tr, s⟩, hfollow⟩ := Option.isSome_iff_exists.mp hsome
  have hrun := Interleaving.run_of_follow .start hfollow
  have hstarts : ((Interleaving.follow (stepWorker headProgram) headOrder
      ([], headProgram.start)).map fun r => starts r.1) = some [0, 1] := by decide
  rw [hfollow] at hstarts
  exact ⟨tr, s, hrun, Option.some.inj hstarts, walker_safe
    (show load {} ⟨some headRaw, none, []⟩ pairIrs pairRegistry {} = .ok headTable by
      decide)
    (show startUp {} ["rvv", "scalar"] headTable = .ok (headProgram.workers, []) by
      decide) hrun⟩

end ModelBlaster
