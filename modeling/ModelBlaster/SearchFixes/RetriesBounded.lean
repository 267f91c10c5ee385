import ModelBlaster.SearchFixes.Requeue
import Mathlib.Data.List.Dedup

/-!
# Retries are bounded

How often an item is planned again, over all rounds of a run whose processes may die at any point.

## Main definitions

* `replanRounds`, `heldRounds`: the rounds that put a key back, and those that hold it back;
* `Torn`: the plan of a round is kept while its count is not.

## Main results

* `retriesBounded`: where no process dies at a torn point, the counts of the state are those of the
  rounds, and stay within their bounds.
-/

namespace ModelBlaster.SearchFixes

open Transducer List

/-! ### What a run shows -/

/-- The round of a step. -/
def roundOf (e : Sys × Event) : ℕ := e.1.disk.state.rounds

/-- The rounds that have put a key back into their plan. -/
def replanRounds (k : String) (log : List (Sys × Event)) : List ℕ :=
  (log.filter fun e => k ∈ e.2.again).map roundOf

/-- The rounds that have held a key back before it was marked sent. -/
def heldRounds (k : String) (log : List (Sys × Event)) : List ℕ :=
  (log.filter fun e => k ∈ e.2.held ∧ k ∉ e.1.disk.state.sent).map roundOf

/-- The profiles that the round of a disk works with. -/
def Disk.profiles (d : Disk) : List Profile := d.progress.profile.getD []

/-- A sent item can be put back: an op with its key lost a winner and runs a seed, and the key has
not been put back as often as it may. -/
def Requeueable (f : Flow) (d : Disk) (k : String) : Prop :=
  f.requeueing = true ∧ k ∈ (stuckKeys f.keys d.profiles).map Prod.fst ∧ k ∈ d.state.sent ∧
    (d.state.requeuedOf k).n < f.requeueMax

/-- The plan of the round is in `progress.json`, and the count of a key that it has put back is not
in `state.json`. -/
def Torn (f : Flow) (d : Disk) : Prop := d.progress.plan.isSome = true ∧ ∃ k, Requeueable f d k

/-- No process dies at a torn point. -/
def NoneTorn (f : Flow) (log : List (Sys × Event)) : Prop :=
  ∀ e ∈ log, e.2 = .died → ¬Torn f e.1.disk

/-- A plan that was made with keys put back. -/
structure PlannedSpec (f : Flow) (d : Disk) (again : List String) (plan : Plan) : Prop where
  /-- A key that is put back has an item if one of its instances was measured. -/
  item : ∀ k ∈ again, (∃ it ∈ plan.items, it.item.key = k) ↔
    ∃ p ∈ d.profiles, ∃ r ∈ p.ops, r.us ≠ none ∧ f.keys.rankKey r = k
  /-- The item is selected if it is within the budget. -/
  selected : ∀ before it after, plan.items = before ++ it :: after → it.item.key ∈ again →
    (it.selected = true ↔ Qualifies (f.opts d.state.rounds) before it)

/-- What holds of the retries when a run has come to a state. -/
structure RetriesBounded (f : Flow) (log : List (Sys × Event)) (s : Sys) : Prop where
  replanned : ∀ k, (replanRounds k log).length ≤ f.requeueMax
  /-- A round counts once: the counts of the state are those of the rounds that are recorded. -/
  replannedOnce : ∀ k, (replanRounds k log).Nodup ∧
    (s.disk.state.requeuedOf k).rounds =
      (replanRounds k log).filter (· < s.disk.state.rounds) ∧
    (s.disk.state.requeuedOf k).n = (s.disk.state.requeuedOf k).rounds.length
  held : ∀ k, (heldRounds k log).dedup.length ≤ f.sentRetryMax
  heldOnce : ∀ k ∉ s.disk.state.sent,
    (s.disk.state.retryOf k).rounds.Nodup ∧
    (∀ r, r ∈ (s.disk.state.retryOf k).rounds ↔
      r ∈ heldRounds k log ∧ r < s.disk.state.rounds) ∧
    (s.disk.state.retryOf k).n = (s.disk.state.retryOf k).rounds.length
  planned : ∀ e ∈ log, ∀ again plan, e.2 = .plan again plan →
    PlannedSpec f e.1.disk again plan
  /-- The plan of the round is one that was made in it. -/
  current : ∀ plan, s.disk.progress.plan = some plan →
    ∃ e ∈ log, roundOf e = s.disk.state.rounds ∧ ∃ again, e.2 = .plan again plan
  /-- The plan that is run is the plan of the round. -/
  inUse : ∀ st move plan, s.proc = .planned st move plan → s.disk.progress.plan = some plan

/-! ### The process and the files -/

/-- The process has in memory what it has written. -/
def Proc.Fits (f : Flow) (d : Disk) : Proc → Prop
  | .idle => True
  | .profiled profiles =>
    f.preStop d.state.rounds = false ∧ d.progress.profile = some profiles
  | .moved profiles move =>
    f.preStop d.state.rounds = false ∧ d.progress.profile = some profiles ∧
      d.progress.controller = some move
  | .planned st move plan =>
    f.preStop d.state.rounds = false ∧ d.progress.controller = some move ∧ move.stop = false ∧
      d.progress.plan = some plan ∧ st = { d.state with requeued := st.requeued }
  | .marked st =>
    d.progress.plan.isSome = true ∧
      st = { d.state with
        requeued := st.requeued, sent := st.sent, sentRetry := st.sentRetry }

/-- The state that the process has in memory. -/
def Sys.mem (s : Sys) : State :=
  match s.proc with
  | .planned st _ _ => st
  | .marked st => st
  | _ => s.disk.state

/-- A step that plans nothing and takes no results keeps what `progress.json` has. -/
structure Progress.Kept (p p' : Progress) : Prop where
  controller : ∀ move, p.controller = some move → p'.controller = some move
  plan : p'.plan = p.plan

/-- What a step can do. -/
inductive Stepped (f : Flow) (s : Sys) : Event → Sys → Prop
  | died : Stepped f s .died ⟨s.disk, .idle⟩
  | early {e : Event} {s' : Sys} (again : e.again = []) (held : e.held = [])
      (unplanned : ∀ a plan, e ≠ .plan a plan) (mem : s.mem = s.disk.state)
      (mem' : s'.mem = s.disk.state) (state : s'.disk.state = s.disk.state)
      (kept : s.disk.progress.Kept s'.disk.progress) (idle : ∀ st, s'.proc ≠ .marked st) :
      Stepped f s e s'
  | planned {move : RoundMove} {e : Excluded} {plan : Plan} {profiles : List Profile}
      (mem : s.mem = s.disk.state) (none : s.disk.progress.plan = none)
      (profile : s.disk.progress.profile = some profiles)
      (excluded : e = exclude f.toFixes f.keys profiles s.disk.state s.disk.state.rounds)
      (made : plan = makePlan f.keys (f.opts s.disk.state.rounds) profiles e.excluded) :
      Stepped f s (.plan e.again plan)
        ⟨⟨s.disk.state, { s.disk.progress with plan := some plan }⟩, .planned e.state move plan⟩
  | nothing {st : State} {move : RoundMove} {plan : Plan} (proc : s.proc = .planned st move plan)
      (skipped : move.kernel = false ∨ plan.problems.isEmpty = true) :
      Stepped f s .nothing ⟨s.disk, .marked st⟩
  | marked {st : State} {move : RoundMove} {plan : Plan} {results : List Result}
      {q : List String × State} (proc : s.proc = .planned st move plan)
      (run : ¬(move.kernel = false ∨ plan.problems.isEmpty = true))
      (sent : q = markSent f.toFixes plan.selectedKeys plan.problems results st st.rounds) :
      Stepped f s (.marked q.1) ⟨s.disk, .marked q.2⟩
  | stopped (mem : s.mem = s.disk.state)
      (stop : f.preStop s.disk.state.rounds = true ∨
        ∃ move, s.disk.progress.controller = some move ∧ move.stop = true) :
      Stepped f s .state s.disk.state.ended
  | recorded {st : State} (proc : s.proc = .marked st) : Stepped f s .state st.ended

/-- What a step does, and that the process keeps in memory what it has written. -/
theorem stepped {f : Flow} {s : Sys} (h : s.proc.Fits f s.disk) (a : Act) :
    Stepped f s (step f s a).1 (step f s a).2 ∧
      (step f s a).2.proc.Fits f (step f s a).2.disk := by
  obtain ⟨d, proc⟩ := s
  cases a with
  | die => exact ⟨.died, trivial⟩
  | go a =>
    cases proc with
    | idle =>
      simp only [step]
      by_cases hpre : f.preStop d.state.rounds = true
      · rw [if_pos hpre]
        exact ⟨.stopped rfl (.inl hpre), trivial⟩
      · rw [if_neg hpre]
        exact ⟨.early rfl rfl (by simp) rfl rfl rfl ⟨fun _ h => h, rfl⟩ (by simp),
          by simpa using hpre, rfl⟩
    | profiled profiles =>
      obtain ⟨hpre, hprofile⟩ := h
      refine ⟨.early rfl rfl (by simp [step]) rfl rfl rfl ⟨fun m hm => ?_, rfl⟩ (by simp [step]),
        hpre, hprofile, rfl⟩
      show some (d.progress.controller.getD a.move) = some m
      rw [show d.progress.controller = some m from hm]
      rfl
    | moved profiles move =>
      obtain ⟨hpre, hprofile, hcontroller⟩ := h
      simp only [step]
      by_cases hstop : move.stop = true
      · rw [if_pos hstop]
        exact ⟨.stopped rfl (.inr ⟨move, hcontroller, hstop⟩), trivial⟩
      rw [if_neg hstop, planStep]
      have hmove : move.stop = false := by simpa using hstop
      cases hplan : d.progress.plan with
      | some plan =>
        exact ⟨.early rfl rfl (by simp) rfl rfl rfl ⟨fun _ h => h, rfl⟩ (by simp),
          hpre, hcontroller, hmove, hplan, rfl⟩
      | none =>
        exact ⟨.planned rfl hplan hprofile rfl rfl, hpre, hcontroller, hmove, rfl,
          exclude_state _ _ _ _ _⟩
    | planned st move plan =>
      obtain ⟨hpre, hcontroller, hstop, hplan, hst⟩ := h
      have hsome : d.progress.plan.isSome = true := Option.isSome_of_eq_some hplan
      simp only [step, runStep]
      split_ifs with hskip
      · exact ⟨.nothing rfl hskip, hsome, by rw [hst]⟩
      · refine ⟨.marked rfl hskip rfl, hsome, ?_⟩
        rw [markSent_state, hst]
    | marked st => exact ⟨.recorded rfl, trivial⟩

/-! ### Re-queues -/

section

variable {f : Flow} {log : List (Sys × Event)} {s s' : Sys} {e : Event}

theorem replanRounds_concat (k : String) (x : Sys × Event) :
    replanRounds k (log ++ [x]) =
      replanRounds k log ++ if k ∈ x.2.again then [roundOf x] else [] := by
  unfold replanRounds
  split_ifs with h <;> simp [h]

/-- The counts of the state in memory are those of the rounds, and the files are behind by the key
that the plan of this round has put back. -/
structure Requeues (f : Flow) (log : List (Sys × Event)) (s : Sys) : Prop where
  rounds : ∀ k, (s.mem.requeuedOf k).rounds = replanRounds k log
  n : ∀ k, (s.mem.requeuedOf k).n = (s.mem.requeuedOf k).rounds.length
  le : ∀ k, (s.mem.requeuedOf k).n ≤ f.requeueMax
  nodup : ∀ k, (s.disk.state.requeuedOf k).rounds.Nodup
  lt : ∀ k, ∀ r ∈ (s.disk.state.requeuedOf k).rounds, r < s.disk.state.rounds
  behind : ∀ k, s.mem.requeuedOf k = s.disk.state.requeuedOf k ∨
    s.mem.requeuedOf k = (s.disk.state.requeuedOf k).add s.disk.state.rounds ∧
      Torn f s.disk

section
variable (h : Requeues f log s)
include h

/-- Outside the torn points the files have the counts. -/
theorem Requeues.mem_eq (hnt : ¬Torn f s.disk) (k : String) :
    s.mem.requeuedOf k = s.disk.state.requeuedOf k :=
  (h.behind k).resolve_right fun hb => hnt hb.2

/-- The files count each recorded round once. -/
theorem Requeues.once (k : String) : (replanRounds k log).Nodup ∧
    (s.disk.state.requeuedOf k).rounds =
      (replanRounds k log).filter (· < s.disk.state.rounds) ∧
    (s.disk.state.requeuedOf k).n = (s.disk.state.requeuedOf k).rounds.length := by
  have hkeep : (s.disk.state.requeuedOf k).rounds.filter (· < s.disk.state.rounds) =
      (s.disk.state.requeuedOf k).rounds :=
    filter_eq_self.mpr fun r hr => decide_eq_true (h.lt k r hr)
  have hn := h.n k
  rw [← h.rounds k]
  rcases h.behind k with hb | ⟨hb, -⟩ <;> rw [hb] at hn ⊢
  · exact ⟨h.nodup k, hkeep.symm, hn⟩
  · -- the present round is not recorded yet
    refine ⟨nodup_append.mpr ⟨h.nodup k, nodup_singleton _, fun r hr r' hr' => ?_⟩,
      ?_, ?_⟩
    · rw [mem_singleton.mp hr']
      exact (h.lt k r hr).ne
    · simp [Count.add, filter_append, hkeep]
    · simpa [Count.add] using hn

/-- A step that leaves the counts in memory and on the disk alone. -/
theorem Requeues.of_eq (hagain : e.again = [])
    (hmem : ∀ k, s'.mem.requeuedOf k = s.mem.requeuedOf k)
    (hdisk : ∀ k, s'.disk.state.requeuedOf k = s.disk.state.requeuedOf k)
    (hrounds : s'.disk.state.rounds = s.disk.state.rounds)
    (hbehind : ∀ k, s'.mem.requeuedOf k = s'.disk.state.requeuedOf k ∨
      s'.mem.requeuedOf k = (s'.disk.state.requeuedOf k).add s'.disk.state.rounds ∧
        Torn f s'.disk) : Requeues f (log ++ [(s, e)]) s' where
  rounds k := by
    rw [replanRounds_concat, hagain, hmem, h.rounds k]
    simp
  n k := hmem k ▸ h.n k
  le k := hmem k ▸ h.le k
  nodup k := hdisk k ▸ h.nodup k
  lt k := by
    rw [hdisk, hrounds]
    exact h.lt k
  behind := hbehind

end

variable {st : State} {move : RoundMove} {x : Excluded} {plan : Plan} {k : String} {d : Disk}

section
variable (h : Requeues f log s)
include h

/-- A round that is recorded has its counts on the disk. -/
theorem Requeues.ended (hagain : e.again = []) (hmem : s.mem = st)
    (hrounds : st.rounds = s.disk.state.rounds) :
    Requeues f (log ++ [(s, e)]) st.ended := by
  subst hmem
  have heq : ∀ k, (State.ended s.mem).disk.state.requeuedOf k = s.mem.requeuedOf k := fun _ => rfl
  have heq' : ∀ k, (State.ended s.mem).mem.requeuedOf k = s.mem.requeuedOf k := fun _ => rfl
  refine ⟨fun k => ?_, fun k => h.n k, fun k => h.le k, fun k => ?_, fun k => ?_,
    fun k => .inl rfl⟩
  · rw [replanRounds_concat, hagain, heq', h.rounds k]
    simp
  · rw [heq]
    rcases h.behind k with hb | ⟨hb, -⟩ <;> rw [hb]
    · exact h.nodup k
    · exact nodup_append.mpr ⟨h.nodup k, nodup_singleton _, fun r hr r' hr' => by
        rw [mem_singleton.mp hr']
        exact (h.lt k r hr).ne⟩
  · rw [heq]
    show ∀ r ∈ _, r < s.mem.rounds + 1
    rw [hrounds]
    intro r hr
    rcases h.behind k with hb | ⟨hb, -⟩ <;> rw [hb] at hr
    · exact Nat.lt_succ_of_lt (h.lt k r hr)
    · rcases mem_append.mp hr with hr | hr
      · exact Nat.lt_succ_of_lt (h.lt k r hr)
      · rw [mem_singleton.mp hr]
        exact Nat.lt_succ_self _

/-- A plan that is made counts the keys that it puts back, in memory. -/
theorem Requeues.planned {profiles : List Profile} (mem : s.mem = s.disk.state)
    (profile : s.disk.progress.profile = some profiles)
    (excluded : x = exclude f.toFixes f.keys profiles s.disk.state s.disk.state.rounds) :
    Requeues f (log ++ [(s, .plan x.again plan)])
      ⟨⟨s.disk.state, { s.disk.progress with plan := some plan }⟩,
        .planned x.state move plan⟩ := by
  have hspec := exclude_spec f.toFixes f.keys profiles fun k hr => lt_irrefl _ (h.lt k _ hr)
  rw [← excluded] at hspec
  have hdisk : ∀ k, s.disk.state.requeuedOf k = s.mem.requeuedOf k := fun k => by rw [mem]
  refine ⟨fun k => ?_, fun k => ?_, fun k => ?_, h.nodup, h.lt, fun k => ?_⟩
  · rw [replanRounds_concat, ← h.rounds k, ← hdisk k]
    show (x.state.requeuedOf k).rounds = _ ++ if k ∈ x.again then _ else _
    rw [hspec.requeuedOf k]
    split_ifs
    · rfl
    · exact (append_nil _).symm
  · show (x.state.requeuedOf k).n = (x.state.requeuedOf k).rounds.length
    rw [hspec.requeuedOf k, hdisk k]
    split_ifs
    · simp [Count.add, h.n k]
    · exact h.n k
  · show (x.state.requeuedOf k).n ≤ _
    rw [hspec.requeuedOf k]
    split_ifs with hk
    · exact ((hspec.mem_again k).mp hk).2.2.2
    · exact hdisk k ▸ h.le k
  · show x.state.requeuedOf k = _ ∨ x.state.requeuedOf k = _ ∧ _
    rw [hspec.requeuedOf k]
    by_cases hk : k ∈ x.again
    · -- the key that is put back is one that could be
      refine .inr ⟨if_pos hk, rfl, k, ?_⟩
      obtain ⟨hon, hstuck, hsent, hlt⟩ := (hspec.mem_again k).mp hk
      refine ⟨hon, ?_, hsent, hlt⟩
      rwa [Disk.profiles, show s.disk.progress.profile = some profiles from profile]
    · exact .inl (if_neg hk)

/-- What a step keeps of the counts, unless a process dies at a torn point. -/
theorem Requeues.step (hfits : s.proc.Fits f s.disk) (hs : Stepped f s e s')
    (hnt : e = .died → ¬Torn f s.disk) :
    Requeues f (log ++ [(s, e)]) s' := by
  cases hs with
  | died =>
    have hmem := h.mem_eq (hnt rfl)
    exact h.of_eq rfl (fun k => (hmem k).symm) (fun _ => rfl) rfl fun _ => .inl rfl
  | early again held unplanned mem mem' state kept idle =>
    refine h.of_eq again (fun k => ?_) (fun k => ?_) (by rw [state]) fun k => .inl ?_
    · rw [mem, mem']
    · rw [state]
    · rw [mem', state]
  | planned mem none profile excluded made => exact h.planned mem profile excluded
  | @nothing st move plan proc skipped =>
    have hmem : s.mem = st := by rw [Sys.mem, proc]
    exact h.of_eq rfl (fun k => by rw [hmem]; rfl) (fun _ => rfl) rfl fun k =>
      hmem ▸ h.behind k
  | @marked st move plan results q proc run sent =>
    have hmem : s.mem = st := by rw [Sys.mem, proc]
    have hq : ∀ k, q.2.requeuedOf k = s.mem.requeuedOf k := fun k => by
      rw [sent, markSent_state, hmem]
      rfl
    exact h.of_eq rfl hq (fun _ => rfl) rfl fun k => by
      show q.2.requeuedOf k = _ ∨ q.2.requeuedOf k = _ ∧ _
      rw [hq]
      exact h.behind k
  | stopped mem stop => exact h.ended rfl mem rfl
  | @recorded st proc =>
    have hmem : s.mem = st := by rw [Sys.mem, proc]
    rw [proc] at hfits
    exact h.ended rfl hmem (by rw [hfits.2])

end

/-! ### Retries -/

theorem mem_heldRounds_concat {x : Sys × Event} {r : ℕ} :
    r ∈ heldRounds k (log ++ [x]) ↔
      r ∈ heldRounds k log ∨ (k ∈ x.2.held ∧ k ∉ x.1.disk.state.sent) ∧ roundOf x = r := by
  simp only [heldRounds, filter_append, map_append, mem_append, mem_map,
    mem_filter, decide_eq_true_eq, mem_singleton]
  refine or_congr_right ⟨?_, fun ⟨hx, hr⟩ => ⟨x, ⟨rfl, hx⟩, hr⟩⟩
  rintro ⟨_, ⟨rfl, hx⟩, hr⟩
  exact ⟨hx, hr⟩

theorem heldRounds_concat_of_held {x : Sys × Event} (h : x.2.held = []) (k : String) :
    heldRounds k (log ++ [x]) = heldRounds k log := by
  simp [heldRounds, filter_append, h]

/-- What a key needs to be held back in the round: the round runs the problems of its plan, and the
key is selected there. -/
structure Pending (f : Flow) (d : Disk) (k : String) : Prop where
  preStop : f.preStop d.state.rounds = false
  run : ∃ move plan, d.progress.controller = some move ∧ d.progress.plan = some plan ∧
    move.stop = false ∧ ¬(move.kernel = false ∨ plan.problems.isEmpty = true) ∧
    k ∈ plan.selectedKeys
  lt : (d.state.retryOf k).n < f.sentRetryMax

/-- The retries of a key on the disk are the recorded rounds that held it back. -/
structure Counted (f : Flow) (log : List (Sys × Event)) (d : Disk) (k : String) : Prop where
  nodup : (d.state.retryOf k).rounds.Nodup
  n : (d.state.retryOf k).n = (d.state.retryOf k).rounds.length
  le : (d.state.retryOf k).n ≤ f.sentRetryMax
  mem : ∀ r, r ∈ (d.state.retryOf k).rounds ↔ r ∈ heldRounds k log ∧ r < d.state.rounds
  pending : d.state.rounds ∈ heldRounds k log → Pending f d k

/-- What the state in memory has of a key that is not sent: it was held back in this round and is
counted, or it was not. -/
def MarkedOf (log : List (Sys × Event)) (d : Disk) (st : State) (k : String) : Prop :=
  st.retryOf k = d.state.retryOf k ∧ d.state.rounds ∉ heldRounds k log ∨
    st.retryOf k = (d.state.retryOf k).add d.state.rounds ∧ d.state.rounds ∈ heldRounds k log

/-- What holds of the keys that are held back. -/
structure Retries (f : Flow) (log : List (Sys × Event)) (s : Sys) : Prop where
  le : ∀ k, ∀ r ∈ heldRounds k log, r ≤ s.disk.state.rounds
  lt : ∀ k, ∀ r ∈ (s.disk.state.retryOf k).rounds, r < s.disk.state.rounds
  bounded : ∀ k, (heldRounds k log).dedup.length ≤ f.sentRetryMax
  counted : ∀ k ∉ s.disk.state.sent, Counted f log s.disk k
  marked : ∀ st, s.proc = .marked st → s.disk.state.sent ⊆ st.sent ∧
    (∀ k, ∀ r ∈ (st.retryOf k).rounds, r ≤ s.disk.state.rounds) ∧
    ∀ k ∉ st.sent, MarkedOf log s.disk st k

/-- Retries of a round and of all rounds before it are no more than the maximum. -/
theorem Counted.bounded (h : Counted f log d k) (hle : ∀ r ∈ heldRounds k log, r ≤ d.state.rounds) :
    (heldRounds k log).dedup.length ≤ f.sentRetryMax := by
  by_cases hin : d.state.rounds ∈ heldRounds k log
  · -- the present round is one more than those that are recorded
    have hsub : (heldRounds k log).dedup ⊆ d.state.rounds :: (d.state.retryOf k).rounds := by
      intro r hr
      have hr' := mem_dedup.mp hr
      rcases (hle r hr').eq_or_lt with rfl | hlt
      · exact mem_cons_self
      · exact mem_cons_of_mem _ ((h.mem r).mpr ⟨hr', hlt⟩)
    have hlen := List.Nodup.length_le_of_subset (nodup_dedup _) hsub
    have hlt := (h.pending hin).lt
    rw [length_cons, ← h.n] at hlen
    omega
  · have hsub : (heldRounds k log).dedup ⊆ (d.state.retryOf k).rounds := by
      intro r hr
      have hr' := mem_dedup.mp hr
      refine (h.mem r).mpr ⟨hr', (hle r hr').lt_of_ne ?_⟩
      rintro rfl
      exact hin hr'
    have hlen := List.Nodup.length_le_of_subset (nodup_dedup _) hsub
    have hle' := h.le
    rw [← h.n] at hlen
    omega

section
variable (h : Retries f log s)
include h

/-- A step that takes no results and leaves the state on the disk alone. -/
theorem Retries.of_eq (hheld : e.held = []) (hstate : s'.disk.state = s.disk.state)
    (hkept : s.disk.progress.Kept s'.disk.progress ∨ s.disk.progress.plan = none)
    (hmarked : ∀ st, s'.proc = .marked st → s.disk.state.sent ⊆ st.sent ∧
      (∀ k, ∀ r ∈ (st.retryOf k).rounds, r ≤ s.disk.state.rounds) ∧
      ∀ k ∉ st.sent, MarkedOf log s.disk st k) : Retries f (log ++ [(s, e)]) s' where
  le k := by
    rw [heldRounds_concat_of_held hheld, hstate]
    exact h.le k
  lt k := by
    rw [hstate]
    exact h.lt k
  bounded k := by
    rw [heldRounds_concat_of_held hheld]
    exact h.bounded k
  counted k hk := by
    rw [hstate] at hk
    have hc := h.counted k hk
    refine ⟨hstate ▸ hc.nodup, hstate ▸ hc.n, hstate ▸ hc.le, ?_, ?_⟩
    · rw [heldRounds_concat_of_held hheld, hstate]
      exact hc.mem
    · rw [heldRounds_concat_of_held hheld, hstate]
      intro hin
      obtain ⟨hpre, ⟨move, plan, hmove, hplan, hrun⟩, hlt⟩ := hc.pending hin
      rcases hkept with hkept | hnone
      · exact ⟨hstate ▸ hpre,
          ⟨move, plan, hkept.controller move hmove, hkept.plan.trans hplan, hrun⟩,
          hstate ▸ hlt⟩
      · rw [hnone] at hplan
        cases hplan
  marked st hst := by
    rw [hstate]
    obtain ⟨hsub, hle, hof⟩ := hmarked st hst
    refine ⟨hsub, hle, fun k hk => ?_⟩
    unfold MarkedOf
    rw [heldRounds_concat_of_held hheld, hstate]
    exact hof k hk

/-- A round that is recorded. -/
theorem Retries.ended (hheld : e.held = []) (hrounds : st.rounds = s.disk.state.rounds)
    (hsub : s.disk.state.sent ⊆ st.sent)
    (hle : ∀ k, ∀ r ∈ (st.retryOf k).rounds, r ≤ s.disk.state.rounds)
    (hof : ∀ k ∉ st.sent, MarkedOf log s.disk st k) :
    Retries f (log ++ [(s, e)]) st.ended := by
  have hnext : st.ended.disk.state.rounds = s.disk.state.rounds + 1 := by rw [← hrounds]; rfl
  have hretry : ∀ k, st.ended.disk.state.retryOf k = st.retryOf k := fun _ => rfl
  refine ⟨fun k => ?_, fun k => ?_, fun k => ?_, fun k hk => ?_, fun _ hst => by cases hst⟩
  · rw [heldRounds_concat_of_held hheld, hnext]
    exact fun r hr => (h.le k r hr).trans (Nat.le_succ _)
  · rw [hnext, hretry]
    exact fun r hr => Nat.lt_succ_of_le (hle k r hr)
  · rw [heldRounds_concat_of_held hheld]
    exact h.bounded k
  · have hc := h.counted k fun hin => hk (hsub hin)
    have hnot : s.disk.state.rounds + 1 ∉ heldRounds k log := fun hin =>
      absurd (h.le k _ hin) (Nat.not_succ_le_self _)
    have hmem : ∀ r, r ∈ heldRounds k log ∧ r < s.disk.state.rounds + 1 ↔
        r ∈ (s.disk.state.retryOf k).rounds ∨
          r = s.disk.state.rounds ∧ s.disk.state.rounds ∈ heldRounds k log := by
      intro r
      rw [hc.mem, Nat.lt_succ_iff_lt_or_eq]
      grind
    refine ⟨?_, ?_, ?_, fun r => ?_, fun hin => ?_⟩
    · rw [hretry]
      rcases hof k hk with ⟨heq, -⟩ | ⟨heq, -⟩ <;> rw [heq]
      · exact hc.nodup
      · exact nodup_append.mpr ⟨hc.nodup, nodup_singleton _, fun r hr r' hr' => by
          rw [mem_singleton.mp hr']
          exact (h.lt k r hr).ne⟩
    · rw [hretry]
      rcases hof k hk with ⟨heq, -⟩ | ⟨heq, -⟩ <;> rw [heq]
      · exact hc.n
      · simp [Count.add, hc.n]
    · rw [hretry]
      rcases hof k hk with ⟨heq, -⟩ | ⟨heq, hin⟩ <;> rw [heq]
      · exact hc.le
      · exact (hc.pending hin).lt
    · rw [hretry, heldRounds_concat_of_held hheld, hnext, hmem]
      rcases hof k hk with ⟨heq, hin⟩ | ⟨heq, hin⟩ <;> rw [heq]
      · simp [hin]
      · simp [Count.add, hin]
    · rw [heldRounds_concat_of_held hheld, hnext] at hin
      exact absurd hin hnot

/-- The results are taken: a key of a selected item is held back and counted, or sent. -/
theorem Retries.run {results : List Result} {q : List String × State}
    (hproc : s.proc = .planned st move plan) (hfits : s.proc.Fits f s.disk)
    (hrun : ¬(move.kernel = false ∨ plan.problems.isEmpty = true))
    (hq : q = markSent f.toFixes plan.selectedKeys plan.problems results st st.rounds) :
    Retries f (log ++ [(s, .marked q.1)]) ⟨s.disk, .marked q.2⟩ := by
  rw [hproc] at hfits
  obtain ⟨hpre, hcontroller, hstop, hplan, hst⟩ := hfits
  have hrounds : st.rounds = s.disk.state.rounds := by rw [hst]
  have hretry : ∀ k, st.retryOf k = s.disk.state.retryOf k := fun k => by rw [hst]; rfl
  have hsent : st.sent = s.disk.state.sent := by rw [hst]
  have hspec := markSent_spec f.toFixes plan.selectedKeys plan.problems results (s := st)
    (r := st.rounds) fun k hr => by
      rw [hretry, hrounds] at hr
      exact lt_irrefl _ (h.lt k _ hr)
  rw [← hq] at hspec
  -- what holds a key back makes it pending
  have hpending : ∀ k ∈ q.1, Pending f s.disk k := fun k hk =>
    ⟨hpre, ⟨move, plan, hcontroller, hplan, hstop, hrun, (hspec.of_mem_held k hk).2.1⟩,
      hretry k ▸ (hspec.of_mem_held k hk).2.2⟩
  have hheld : ∀ k r, r ∈ heldRounds k (log ++ [(s, .marked q.1)]) ↔ r ∈ heldRounds k log ∨
      (k ∈ q.1 ∧ k ∉ s.disk.state.sent) ∧ s.disk.state.rounds = r := fun k r =>
    mem_heldRounds_concat
  have hle : ∀ k, ∀ r ∈ heldRounds k (log ++ [(s, .marked q.1)]), r ≤ s.disk.state.rounds := by
    intro k r hr
    rcases (hheld k r).mp hr with hr | ⟨-, hr⟩
    · exact h.le k r hr
    · exact hr.ge
  have hcounted : ∀ k ∉ s.disk.state.sent, Counted f (log ++ [(s, .marked q.1)]) s.disk k := by
    intro k hk
    have hc := h.counted k hk
    refine ⟨hc.nodup, hc.n, hc.le, fun r => ?_, fun hin => ?_⟩
    · rw [hc.mem, hheld]
      grind
    · rcases (hheld k _).mp hin with hin | ⟨⟨hin, -⟩, -⟩
      · exact hc.pending hin
      · exact hpending k hin
  refine ⟨hle, h.lt, fun k => ?_, hcounted, fun st' hst' => ?_⟩
  · by_cases hk : k ∈ s.disk.state.sent
    · have hsame : heldRounds k (log ++ [(s, .marked q.1)]) = heldRounds k log := by
        simp [heldRounds, filter_append, hk]
      rw [hsame]
      exact h.bounded k
    · exact (hcounted k hk).bounded (hle k)
  · cases hst'
    refine ⟨fun k hk => ?_, fun k r hr => ?_, fun k hk => ?_⟩
    · exact (hspec.mem_sent k).mpr (.inl (hsent ▸ hk))
    · rw [hspec.retryOf, hretry] at hr
      split_ifs at hr
      · rcases mem_append.mp hr with hr | hr
        · exact (h.lt k r hr).le
        · exact (mem_singleton.mp hr).trans hrounds |>.le
      · exact (h.lt k r hr).le
    · have hno := mt (hspec.mem_sent k).mpr hk
      obtain ⟨hksent, hsel⟩ := not_or.mp hno
      rw [hsent] at hksent
      unfold MarkedOf
      rw [hspec.retryOf, hretry, hheld]
      by_cases hkq : k ∈ q.1
      · exact .inr ⟨by rw [if_pos hkq, hrounds], .inr ⟨⟨hkq, hksent⟩, rfl⟩⟩
      · refine .inl ⟨if_neg hkq, ?_⟩
        rintro (hin | ⟨⟨hin, -⟩, -⟩)
        · -- an earlier process of the round has held back a selected key of the same plan
          obtain ⟨_, plan', -, hplan', -, -, hsel'⟩ := ((h.counted k hksent).pending hin).run
          rw [hplan] at hplan'
          cases hplan'
          exact hsel ⟨hsel', hkq⟩
        · exact hkq hin

/-- What a step keeps of the retries. -/
theorem Retries.step (hfits : s.proc.Fits f s.disk) (hs : Stepped f s e s') :
    Retries f (log ++ [(s, e)]) s' := by
  cases hs with
  | died => exact h.of_eq rfl rfl (.inl ⟨fun _ hm => hm, rfl⟩) fun _ hst => by cases hst
  | early again held unplanned mem mem' state kept idle =>
    exact h.of_eq held state (.inl kept) fun st hst => absurd hst (idle st)
  | planned mem none profile excluded made =>
    exact h.of_eq rfl rfl (.inr none) fun _ hst => by cases hst
  | @nothing st move plan proc skipped =>
    refine h.of_eq rfl rfl (.inl ⟨fun _ hm => hm, rfl⟩) fun st' hst => ?_
    cases hst
    rw [proc] at hfits
    obtain ⟨-, hcontroller, -, hplan, hst⟩ := hfits
    have hretry : ∀ k, st.retryOf k = s.disk.state.retryOf k := fun k => by rw [hst]; rfl
    have hsent : st.sent = s.disk.state.sent := by rw [hst]
    refine ⟨hsent ▸ List.Subset.refl _, fun k r hr => ?_,
      fun k hk => .inl ⟨hretry k, fun hin => ?_⟩⟩
    · rw [hretry] at hr
      exact (h.lt k r hr).le
    · rw [hsent] at hk
      obtain ⟨move', plan', hcontroller', hplan', -, hrun, -⟩ := ((h.counted k hk).pending hin).run
      rw [hcontroller] at hcontroller'
      rw [hplan] at hplan'
      cases hcontroller'
      cases hplan'
      exact hrun skipped
  | marked proc run sent => exact h.run proc hfits run sent
  | stopped mem stop =>
    refine h.ended rfl rfl (List.Subset.refl _) (fun k r hr => (h.lt k r hr).le) fun k hk =>
      .inl ⟨rfl, fun hin => ?_⟩
    obtain ⟨hpre, ⟨move', _, hcontroller', -, hmove, -⟩, -⟩ := (h.counted k hk).pending hin
    rcases stop with stop | ⟨move, hcontroller, stop⟩
    · rw [stop] at hpre
      cases hpre
    · rw [hcontroller] at hcontroller'
      cases hcontroller'
      rw [stop] at hmove
      cases hmove
  | @recorded st proc =>
    obtain ⟨hsub, hle, hof⟩ := h.marked st proc
    rw [proc] at hfits
    exact h.ended rfl (by rw [hfits.2]) hsub hle hof

end

/-! ### Plans -/

/-- What holds of the plans that were made. -/
structure Plans (f : Flow) (log : List (Sys × Event)) (s : Sys) : Prop where
  planned : ∀ e ∈ log, ∀ again plan, e.2 = .plan again plan →
    PlannedSpec f e.1.disk again plan
  current : ∀ plan, s.disk.progress.plan = some plan →
    ∃ e ∈ log, roundOf e = s.disk.state.rounds ∧ ∃ again, e.2 = .plan again plan

/-- A plan has an item for each key that is put back and has a measured instance, and nothing but
the budget keeps it from being selected. -/
theorem plannedSpec {profiles : List Profile}
    (hr : ∀ k, d.state.rounds ∉ (d.state.requeuedOf k).rounds)
    (hprofile : d.progress.profile = some profiles)
    (hx : x = exclude f.toFixes f.keys profiles d.state d.state.rounds) :
    PlannedSpec f d x.again (makePlan f.keys (f.opts d.state.rounds) profiles x.excluded) := by
  have hprofiles : d.profiles = profiles := by rw [Disk.profiles, hprofile]; rfl
  have hspec := exclude_spec f.toFixes f.keys profiles hr
  rw [← hx] at hspec
  constructor
  · intro k _
    rw [hprofiles, ← exists_mem_rank_iff]
    conv_rhs => rw [← map_item_selectFrom (f.opts d.state.rounds) x.excluded
      (totalOf (rank f.keys profiles)) (rank f.keys profiles) 0 0]
    simp only [mem_map, exists_exists_and_eq_and]
    rfl
  · intro before it after hitems hk
    rw [selected_iff hitems, hspec.mem_excluded]
    exact and_iff_right fun hex => hex.2 hk

/-- What a step keeps of the plans. -/
theorem Plans.step (h : Plans f log s) (hreq : Requeues f log s) (hs : Stepped f s e s') :
    Plans f (log ++ [(s, e)]) s' := by
  -- a step that makes no plan, and keeps the round and its plan or ends the round
  have hquiet : ∀ {e : Event} {s' : Sys}, (∀ a plan, e ≠ .plan a plan) →
      (s'.disk.progress.plan = none ∨ s'.disk.state = s.disk.state ∧
        s'.disk.progress.plan = s.disk.progress.plan) → Plans f (log ++ [(s, e)]) s' := by
    intro e s' hne hkeep
    refine ⟨fun x hx again plan hplan => ?_, fun plan hplan => ?_⟩
    · rcases mem_append.mp hx with hx | hx
      · exact h.planned x hx again plan hplan
      · rw [mem_singleton.mp hx] at hplan
        exact absurd hplan (hne again plan)
    · rcases hkeep with hnone | ⟨hstate, hsame⟩
      · rw [hnone] at hplan
        cases hplan
      · rw [hsame] at hplan
        obtain ⟨x, hx, hround, hmade⟩ := h.current plan hplan
        exact ⟨x, mem_append_left _ hx, hstate ▸ hround, hmade⟩
  cases hs with
  | died => exact hquiet (by simp) (.inr ⟨rfl, rfl⟩)
  | early again held unplanned mem mem' state kept idle =>
    exact hquiet unplanned (.inr ⟨state, kept.plan⟩)
  | planned mem none profile excluded made =>
    refine ⟨fun x hx again plan hplan => ?_, fun plan hplan => ?_⟩
    · rcases mem_append.mp hx with hx | hx
      · exact h.planned x hx again plan hplan
      · rw [mem_singleton.mp hx] at hplan ⊢
        cases hplan
        rw [made]
        exact plannedSpec (fun k hr => lt_irrefl _ (hreq.lt k _ hr)) profile excluded
    · cases hplan
      exact ⟨_, mem_append_right _ (mem_singleton_self _), rfl, _, rfl⟩
  | nothing proc skipped => exact hquiet (by simp) (.inr ⟨rfl, rfl⟩)
  | marked proc run sent => exact hquiet (by simp) (.inr ⟨rfl, rfl⟩)
  | stopped mem stop => exact hquiet (by simp) (.inl rfl)
  | recorded proc => exact hquiet (by simp) (.inl rfl)

end

/-! ### Runs -/

/-- What holds in every state of a run that does not die at a torn point. -/
structure Reached (f : Flow) (log : List (Sys × Event)) (s : Sys) : Prop where
  fits : s.proc.Fits f s.disk
  requeues : Requeues f log s
  retries : Retries f log s
  plans : Plans f log s

theorem Reached.init (f : Flow) : Reached f [] Sys.init where
  fits := trivial
  requeues :=
    { rounds := fun _ => rfl
      n := fun _ => rfl
      le := fun _ => Nat.zero_le _
      nodup := fun _ => nodup_nil
      lt := fun _ _ hr => absurd hr not_mem_nil
      behind := fun _ => .inl rfl }
  retries :=
    { le := fun _ _ hr => absurd hr not_mem_nil
      lt := fun _ _ hr => absurd hr not_mem_nil
      bounded := fun _ => Nat.zero_le _
      counted := fun _ _ =>
        { nodup := nodup_nil
          n := rfl
          le := Nat.zero_le _
          mem := fun r => ⟨fun hr => absurd hr not_mem_nil,
            fun hr => absurd hr.1 not_mem_nil⟩
          pending := fun hr => absurd hr not_mem_nil }
      marked := fun _ hst => by cases hst }
  plans := ⟨fun _ he => absurd he not_mem_nil, fun _ hplan => by cases hplan⟩

theorem reached (f : Flow) (acts : List Act) :
    NoneTorn f (trace (step f) Sys.init acts) →
      Reached f (trace (step f) Sys.init acts) (run (step f) Sys.init acts) := by
  refine trace_induction (P := fun log s => NoneTorn f log → Reached f log s)
    (fun _ => Reached.init f) (fun log s a ih hnt => ?_) acts
  obtain ⟨hfits, hreq, hret, hplans⟩ := ih fun e he => hnt e (mem_append_left _ he)
  obtain ⟨hs, hfits'⟩ := stepped hfits a
  have hlast := hnt (s, (step f s a).1) (mem_append_right _ (mem_singleton_self _))
  exact ⟨hfits', hreq.step hfits hs hlast, hret.step hfits hs, hplans.step hreq hs⟩

/-- Retries are bounded in every state of a run in which no process dies when the plan of its round
is kept and the count of a key that the plan has put back is not. -/
theorem retriesBounded (f : Flow) (acts : List Act) (h : NoneTorn f (trace (step f) Sys.init acts))
    :
    RetriesBounded f (trace (step f) Sys.init acts) (run (step f) Sys.init acts) := by
  obtain ⟨hfits, hreq, hret, hplans⟩ := reached f acts h
  generalize trace (step f) Sys.init acts = log at *
  generalize run (step f) Sys.init acts = s at *
  refine ⟨fun k => ?_, fun k => ?_, hret.bounded, fun k hk => ?_, hplans.planned,
    hplans.current, fun st move plan hproc => ?_⟩
  · rw [← hreq.rounds k, ← hreq.n k]
    exact hreq.le k
  · exact hreq.once k
  · have hc := hret.counted k hk
    exact ⟨hc.nodup, hc.mem, hc.n⟩
  · rw [hproc] at hfits
    exact hfits.2.2.2.1

/-! ### A model with one matmul -/

/-- The matmul, on its seed kernel. -/
def matmulOp : ProfiledOp := ⟨"mm", "matmul", "mm", "sha", PyDict.empty, some 10, "seed"⟩

/-- The profile of a model whose cached matmul failed. -/
def matmulProfile : Profile :=
  ⟨"m", [matmulOp], [⟨PyDict.ofList [("slot0", ["mm"])], PyDict.ofList [("slot0", "impl0")], []⟩]⟩

/-- Every item is planned, and is put back once at most. -/
def matmulFlow : Flow where
  fallback := .on
  requeueMax := 1
  sentOnSuccess := true
  sentRetryMax := 2
  keys := ⟨fun _ => "\x7b\x7d", none⟩
  opts _ := ⟨2, none, 0, true⟩
  preStop _ := false

/-- The matmul is measured and does not get faster. -/
def matmulAnswers : Answers where
  measured := [matmulProfile]
  move := ⟨true, false⟩
  results := [⟨"m__matmul_0__r00", true, false, false, some 10, none⟩]

/-- Steps of a process that does not die. -/
def goes (n : ℕ) : List Act := List.replicate n (.go matmulAnswers)

/-- The process of the second round dies before the plan is made. -/
def diedBeforePlan : List Act := goes 5 ++ goes 2 ++ [.die] ++ goes 5 ++ goes 3

/-- The process of the second round dies when the plan is made. -/
def diedAfterPlan : List Act := goes 5 ++ goes 3 ++ [.die] ++ goes 5 ++ goes 3

/-- The processes of a run die while their round has no plan. -/
theorem noneTorn_of_all {f : Flow} {log : List (Sys × Event)}
    (h : (log.all fun e => !e.2.isDied || e.1.disk.progress.plan.isNone) = true) :
    NoneTorn f log := by
  rintro e he hdied ⟨hplan, -⟩
  have hall := all_eq_true.mp h e he
  rw [hdied, Option.isNone_eq_false_iff.mpr hplan] at hall
  cases hall

theorem retriesBounded_diedBeforePlan :
    RetriesBounded matmulFlow (trace (step matmulFlow) Sys.init diedBeforePlan)
      (run (step matmulFlow) Sys.init diedBeforePlan) :=
  retriesBounded matmulFlow diedBeforePlan (noneTorn_of_all (by decide +kernel))

/-- The second round and the third put the matmul back, since the count of the second was lost. -/
theorem not_retriesBounded_diedAfterPlan :
    ¬RetriesBounded matmulFlow (trace (step matmulFlow) Sys.init diedAfterPlan)
      (run (step matmulFlow) Sys.init diedAfterPlan) := by
  intro h
  have hle := h.replanned "mm|sha|\x7b\x7d"
  revert hle
  decide +kernel

end ModelBlaster.SearchFixes
