import ModelBlaster.Runtime.ForkJoinSafety
import Mathlib.Algebra.Order.BigOperators.Group.Finset
import Mathlib.Order.Interval.Finset.Nat
import Mathlib.Tactic.Ring

/-!
# The pool does not get stuck

A helper that the master waits for can take a step. Every step brings the run nearer to its end: a
permit of a start semaphore is worth more than all that its helper does with it.

## Main definitions

* `rank`: a bound on the number of steps that are left.

## Main results

* `canStep_or_freed`: unless the pool is freed, some thread takes a step;
* `rank_lt_of_step`: every step lowers the rank;
* `forkJoin_correct`: what the pool guarantees.
-/

namespace ModelBlaster.Pool

open Function

variable {Fn Ctx : Type} {S : Session Fn Ctx}

/-! ### Someone can go on -/

variable {job : Job Fn Ctx} {w : ℕ} {s : PoolState Fn Ctx} {evs : List (PoolEvent Fn Ctx)}

/-- A helper that is woken and has not given its semaphore can go on. -/
theorem HelperRuns.exists_step {first len : ℕ}
    (h : HelperRuns job w first len (s.start w) (s.helper w) (s.done w) evs) (hdone : s.done w = 0)
    :
    ∃ r, stepHelper S w s = some r := by
  unfold stepHelper
  cases h with
  | signalled hstart hpc _ _ => simp [hpc, hstart]
  | awake _ hpc _ _ => simp [hpc]
  | gate _ hpc _ _ => simp [hpc]
  | sizing _ hpc _ _ => simp [hpc]
  | loop _ _ hpc _ _ =>
    simp only [hpc]
    split_ifs <;> exact ⟨_, rfl⟩
  | inside _ _ hpc _ _ => simp [hpc]
  | posting _ hpc _ _ => simp [hpc]
  | posted _ _ hone _ => omega

/-- The master goes first. -/
theorem canStep_of_master (h : ∃ r, stepMaster S s = some r) :
    Interleaving.CanStep (next S) s := by
  obtain ⟨r, hr⟩ := h
  exact ⟨0, r, by rw [next, if_pos rfl, hr]⟩

/-- A helper goes first. -/
theorem canStep_of_helper (hw : IsHelper S w) (h : ∃ r, stepHelper S w s = some r) :
    Interleaving.CanStep (next S) s := by
  obtain ⟨r, hr⟩ := h
  exact ⟨w, r, by rw [next, if_neg (Nat.ne_of_gt hw.1), if_pos hw.2, hr]⟩

/-- A thread with a slice is one of the pool. -/
theorem lt_workers_of_lt_nSlices (h : w < S.nSlices job) :
    w < S.workers := by
  rw [Session.nSlices] at h
  split_ifs at h <;> omega

variable {tr : List (PoolEvent Fn Ctx)}

/-- Unless the pool is freed, some thread can go on. -/
theorem canStep_or_freed (h : Inv S tr s) :
    Interleaving.CanStep (next S) s ∨ s.master = .freed ∧ History S S.calls.length tr ∧
      ∀ w, IsHelper S w → Gone s w := by
  cases h with
  | @between k hpc hhist hquit hdormant =>
    left
    apply canStep_of_master
    cases hcall : S.calls[k]? with
    | none => simp [stepMaster, hpc, MasterPc.call?, hcall, stepDestroy]
    | some job =>
      rw [stepMaster_of_call (by rw [hpc]; rfl) hcall, hpc, stepCall]
      split_ifs <;> exact ⟨_, rfl⟩
  | alone hcall hhist htr halone hquit hdormant =>
    left
    apply canStep_of_master
    obtain ⟨i, ⟨-, hpc, -⟩ | ⟨-, hpc, -⟩⟩ := halone
    · rw [stepMaster_of_call (by rw [hpc]; rfl) hcall, hpc, stepCall]
      split_ifs <;> exact ⟨_, rfl⟩
    · rw [stepMaster_of_call (by rw [hpc]; rfl) hcall, hpc]
      exact ⟨_, rfl⟩
  | store hcall hslices hhist htr hstored hquit hdormant =>
    left
    apply canStep_of_master
    rcases hstored with hpc | ⟨hpc, -⟩ | ⟨hpc, -⟩ | ⟨hpc, -⟩ <;>
      rw [stepMaster_of_call (by rw [hpc]; rfl) hcall, hpc] <;> exact ⟨_, rfl⟩
  | @fork k job past body hcall hslices hhist htr hdesc hquit hbody hmaster hhelpers =>
    left
    cases hmaster with
    | wake hpos hle hpc hevs =>
      apply canStep_of_master
      rw [stepMaster_of_call (by rw [hpc]; rfl) hcall, hpc, stepCall]
      split_ifs <;> exact ⟨_, rfl⟩
    | work hle hpc hevs =>
      apply canStep_of_master
      rw [stepMaster_of_call (by rw [hpc]; rfl) hcall, hpc, stepCall]
      split_ifs <;> exact ⟨_, rfl⟩
    | inside hlt hpc hevs =>
      apply canStep_of_master
      rw [stepMaster_of_call (by rw [hpc]; rfl) hcall, hpc]
      exact ⟨_, rfl⟩
    | @gather v hpos hle hpc hevs =>
      -- The master waits for a helper only while this one has something to do.
      by_cases hwaits : v < S.nSlices job ∧ s.done v = 0
      · have hv : IsHelper S v := ⟨hpos, lt_workers_of_lt_nSlices hwaits.1⟩
        have hwoken : Woken (S.nSlices job) s.master v := by
          rw [hpc]
          exact ⟨le_refl v, hwaits.1⟩
        exact canStep_of_helper hv (((hhelpers v hv).runs hwoken).exists_step hwaits.2)
      · apply canStep_of_master
        rw [stepMaster_of_call (by rw [hpc]; rfl) hcall, hpc, stepCall]
        split_ifs with hlt hdone
        · exact ⟨_, rfl⟩
        · exact absurd ⟨hlt, Nat.eq_zero_of_not_pos hdone⟩ hwaits
        · exact ⟨_, rfl⟩
  | dismiss hpc hpos hle hhist hquit hleaving hdormant =>
    left
    apply canStep_of_master
    rw [stepMaster, hpc]
    simp only [MasterPc.call?, Option.bind_none, stepDestroy]
    split_ifs <;> exact ⟨_, rfl⟩
  | @join v hpc hpos hle hhist hquit hgone hleaving =>
    left
    by_cases hlt : v < S.workers
    · have hv : IsHelper S v := ⟨hpos, hlt⟩
      rcases (hleaving v hv (le_refl v)).position with ⟨hstart, hasleep⟩ | ⟨-, hawake | hexited⟩
      · exact canStep_of_helper hv (by simp [stepHelper, hasleep, hstart])
      · exact canStep_of_helper hv (by simp [stepHelper, hawake])
      · exact canStep_of_master
          (by simp [stepMaster, hpc, MasterPc.call?, stepDestroy, hlt, hexited])
    · exact canStep_of_master (by simp [stepMaster, hpc, MasterPc.call?, stepDestroy, hlt])
  | freed hpc hhist hgone => exact .inr ⟨hpc, hhist, hgone⟩

/-! ### Every step counts -/

/-- What a helper has yet to do, from where it stands. -/
def HelperPc.rank (range : ℕ) (quit : Bool) : HelperPc Fn Ctx → ℕ
  | .asleep | .exited => 0
  | .awake => if quit then 1 else 2 * (range + 1) + 5
  | .gate => 2 * (range + 1) + 4
  | .sizing => 2 * (range + 1) + 3
  | .loop i e => 2 * (e - i) + 2
  | .inside inv e => 2 * (e - (inv.index + 1)) + 3
  | .posting => 1

/-- What a helper does with a permit. -/
def permitRank (range : ℕ) (quit : Bool) : ℕ := if quit then 2 else 2 * (range + 1) + 6

/-- What a helper has yet to do. -/
def helperRank (s : PoolState Fn Ctx) (w : ℕ) : ℕ :=
  (s.helper w).rank s.desc.range s.quit + s.start w * permitRank s.desc.range s.quit

/-- What all helpers have yet to do. -/
def helpersRank (S : Session Fn Ctx) (s : PoolState Fn Ctx) : ℕ :=
  ∑ w ∈ Finset.Ico 1 S.workers, helperRank s w

/-- What the master does in a call, and its helpers with it. -/
def callRank (S : Session Fn Ctx) (range : ℕ) : ℕ :=
  S.workers * (2 * (range + 1) + 7) + S.workers + 2 * (range + 1) + 10

/-- What the master does from a call on. -/
def callsRank (S : Session Fn Ctx) (k : ℕ) : ℕ :=
  ((S.calls.drop k).map fun job => callRank S job.range).sum + 4 * S.workers + 4

/-- The range of a call. -/
def Session.rangeOf (S : Session Fn Ctx) (k : ℕ) : ℕ := (S.calls[k]?.map Job.range).getD 0

/-- What the master has yet to do, and the helpers that it has yet to wake. -/
def MasterPc.rank (S : Session Fn Ctx) : MasterPc → ℕ
  | .idle k => callsRank S k
  | .alone k i => callsRank S (k + 1) + 2 * (S.rangeOf k - i) + 2
  | .insideAlone k i => callsRank S (k + 1) + 2 * (S.rangeOf k - (i + 1)) + 3
  | .storeFn k => callsRank S (k + 1) + callRank S (S.rangeOf k) - 1
  | .storeCtx k => callsRank S (k + 1) + callRank S (S.rangeOf k) - 2
  | .storeRange k => callsRank S (k + 1) + callRank S (S.rangeOf k) - 3
  | .storeSlices k => callsRank S (k + 1) + callRank S (S.rangeOf k) - 4
  | .wake k v => callsRank S (k + 1) + (S.workers - v) * (2 * (S.rangeOf k + 1) + 7) +
      S.workers + 2 * (S.rangeOf k + 1) + 5
  | .work k i => callsRank S (k + 1) + S.workers + 2 * (S.rangeOf k + 1 - i) + 3
  | .inside k i => callsRank S (k + 1) + S.workers + 2 * (S.rangeOf k + 1 - (i + 1)) + 4
  | .gather k v => callsRank S (k + 1) + (S.workers - v) + 1
  | .dismiss v => 3 * (S.workers - v) + S.workers + 2
  | .join v => (S.workers - v) + 1
  | .freed => 0

/-- What is left to do. -/
def rank (S : Session Fn Ctx) (s : PoolState Fn Ctx) : ℕ := s.master.rank S + helpersRank S s

theorem callsRank_of_call {k : ℕ} (hcall : S.calls[k]? = some job) :
    callsRank S k = callRank S job.range + callsRank S (k + 1) ∧ S.rangeOf k = job.range := by
  obtain ⟨hlt, rfl⟩ := List.getElem?_eq_some_iff.mp hcall
  constructor
  · rw [callsRank, List.drop_eq_getElem_cons hlt, List.map_cons, List.sum_cons, callsRank]
    omega
  · rw [Session.rangeOf, hcall]
    rfl

/-- A sum in which one term differs. -/
private theorem sum_update {f g : ℕ → ℕ} {t : Finset ℕ} (hw : w ∈ t)
    (h : ∀ v ∈ t, v ≠ w → f v = g v) : ∑ v ∈ t, f v + g w = ∑ v ∈ t, g v + f w := by
  have hrest : ∑ v ∈ t.erase w, f v = ∑ v ∈ t.erase w, g v :=
    Finset.sum_congr rfl fun v hv => h v (Finset.mem_of_mem_erase hv) (Finset.ne_of_mem_erase hv)
  rw [← Finset.add_sum_erase t f hw, ← Finset.add_sum_erase t g hw, hrest]
  omega

theorem isHelper_iff : IsHelper S w ↔ w ∈ Finset.Ico 1 S.workers := by
  rw [Finset.mem_Ico, IsHelper, Nat.succ_le_iff]

/-- A dormant helper has nothing to do. -/
theorem Dormant.rank_eq (h : Dormant s w) : helperRank s w = 0 := by
  rw [helperRank, h.helper, h.start, Nat.zero_mul]
  rfl

theorem helpersRank_of_dormant (h : ∀ w, IsHelper S w → Dormant s w) :
    helpersRank S s = 0 :=
  Finset.sum_eq_zero fun w hw => (h w (isHelper_iff.mpr hw)).rank_eq

/-- A slice has at most one index more than the range. -/
theorem sliceLength_le (range n w : ℕ) : sliceLength range n w ≤ range + 1 := by
  rw [sliceLength]
  have hdiv := Nat.div_le_self range n
  split_ifs <;> omega

variable {s' : PoolState Fn Ctx}

/-- A step of a helper leaves it less to do. -/
theorem helperRank_lt (h : stepHelper S w s = some (s', evs)) :
    helperRank s' w < helperRank s w := by
  obtain ⟨honly, -⟩ := onlyHelper_of_stepHelper h
  unfold stepHelper at h
  rw [helperRank, helperRank, honly.desc, honly.quit]
  cases hpc : s.helper w with
  | asleep =>
    simp only [hpc] at h
    split_ifs at h with hpos
    cases h
    obtain ⟨m, hm⟩ : ∃ m, s.start w = m + 1 := ⟨s.start w - 1, by omega⟩
    simp only [update_self, HelperPc.rank, hm, Nat.add_sub_cancel, Nat.succ_mul, permitRank]
    split_ifs <;> omega
  | awake =>
    simp only [hpc] at h
    cases h
    cases hquit : s.quit <;> simp [HelperPc.rank]
  | gate =>
    simp only [hpc] at h
    cases h
    simp only [update_self]
    split_ifs <;> simp only [HelperPc.rank] <;> omega
  | sizing =>
    simp only [hpc] at h
    cases h
    have hlen := sliceLength_le s.desc.range s.desc.nActiveSlices w
    simp only [update_self, HelperPc.rank, Nat.add_sub_cancel_left]
    omega
  | loop i e =>
    simp only [hpc] at h
    split_ifs at h with hlt
    · cases h
      simp only [update_self, HelperPc.rank]
      omega
    · cases h
      simp only [update_self, HelperPc.rank]
      omega
  | inside inv e =>
    simp only [hpc] at h
    cases h
    simp only [update_self, HelperPc.rank]
    omega
  | posting =>
    simp only [hpc] at h
    cases h
    simp only [update_self, HelperPc.rank]
    omega
  | exited =>
    simp only [hpc] at h
    cases h

/-- A step of a helper lowers the rank. -/
theorem rank_lt_of_stepHelper (hw : IsHelper S w) (h : stepHelper S w s = some (s', evs)) :
    rank S s' < rank S s := by
  obtain ⟨honly, -⟩ := onlyHelper_of_stepHelper h
  have hlt := helperRank_lt h
  have hsum := sum_update (f := helperRank s') (g := helperRank s) (isHelper_iff.mp hw)
    fun v _ hne => by
      rw [helperRank, helperRank, honly.helper v hne, honly.start v hne, honly.desc, honly.quit]
  rw [rank, rank, honly.master, helpersRank, helpersRank]
  omega

/-- A step of the master lowers the rank. -/
theorem rank_lt_of_stepMaster (hinv : Inv S tr s) (h : stepMaster S s = some (s', evs)) :
    rank S s' < rank S s := by
  cases hinv with
  | @between k hpc hhist hquit hdormant =>
    have hold := helpersRank_of_dormant hdormant
    have hnew : ∀ pc quit, helpersRank S { s with master := pc, quit := quit } = 0 := fun pc quit =>
      helpersRank_of_dormant fun w hw =>
        ⟨(hdormant w hw).start, (hdormant w hw).helper, (hdormant w hw).done⟩
    cases hcall : S.calls[k]? with
    | none =>
      rw [stepMaster, hpc] at h
      simp only [MasterPc.call?, Option.bind_some, hcall, stepDestroy] at h
      cases h
      rw [rank, rank, hold, hnew, hpc]
      simp only [MasterPc.rank, callsRank]
      omega
    | some job =>
      obtain ⟨hrank, hrange⟩ := callsRank_of_call hcall
      rw [stepMaster_of_call (by rw [hpc]; rfl) hcall, hpc, stepCall] at h
      split_ifs at h <;> cases h <;> rw [rank, rank, hold, hnew _ s.quit, hpc] <;>
        simp only [MasterPc.rank, hrank, hrange, callRank] <;> omega
  | @alone k job past body hcall hhist htr halone hquit hdormant =>
    have hold := helpersRank_of_dormant hdormant
    have hnew : ∀ pc, helpersRank S { s with master := pc } = 0 := fun pc =>
      helpersRank_of_dormant fun w hw =>
        ⟨(hdormant w hw).start, (hdormant w hw).helper, (hdormant w hw).done⟩
    obtain ⟨-, hrange⟩ := callsRank_of_call hcall
    obtain ⟨i, ⟨hle, hpc, -⟩ | ⟨hlt, hpc, -⟩⟩ := halone
    · rw [stepMaster_of_call (by rw [hpc]; rfl) hcall, hpc, stepCall] at h
      split_ifs at h <;> cases h <;> rw [rank, rank, hold, hnew, hpc] <;>
        simp only [MasterPc.rank, hrange] <;> omega
    · rw [stepMaster_of_call (by rw [hpc]; rfl) hcall, hpc, stepCall] at h
      cases h
      rw [rank, rank, hold, hnew, hpc]
      simp only [MasterPc.rank, hrange]
      omega
  | @store k job past hcall hslices hhist htr hstored hquit hdormant =>
    have hold := helpersRank_of_dormant hdormant
    have hnew : ∀ pc desc, helpersRank S { s with master := pc, desc := desc } = 0 := fun pc desc =>
      helpersRank_of_dormant fun w hw =>
        ⟨(hdormant w hw).start, (hdormant w hw).helper, (hdormant w hw).done⟩
    obtain ⟨-, hrange⟩ := callsRank_of_call hcall
    obtain ⟨m, hm⟩ : ∃ m, S.workers = m + 1 := ⟨S.workers - 1, by have := S.workers_pos; omega⟩
    rcases hstored with hpc | ⟨hpc, -⟩ | ⟨hpc, -⟩ | ⟨hpc, -⟩ <;>
      rw [stepMaster_of_call (by rw [hpc]; rfl) hcall, hpc, stepCall] at h <;> cases h <;>
      rw [rank, rank, hold, hnew, hpc] <;>
      simp only [MasterPc.rank, hrange, callRank, hm, Nat.succ_mul, Nat.add_sub_cancel] <;> omega
  | @fork k job past body hcall hslices hhist htr hdesc hquit hbody hmaster hhelpers =>
    obtain ⟨-, hrange⟩ := callsRank_of_call hcall
    cases hmaster with
    | @wake v hpos hle hpc hevs =>
      rw [stepMaster_of_call (by rw [hpc]; rfl) hcall, hpc, stepCall] at h
      split_ifs at h with hlt
      · cases h
        have hv : IsHelper S v := ⟨hpos, lt_workers_of_lt_nSlices hlt⟩
        have hsleep : Dormant s v := (hhelpers v hv).dormant (by
          rw [hpc]
          exact Nat.lt_irrefl v)
        set s' : PoolState Fn Ctx := { s with
          master := .wake k (v + 1)
          start := Function.update s.start v (giveSem S.platform.semLimit (s.start v)) } with hs'
        -- The helper has a permit more, and nothing else to do.
        have hsum := sum_update (f := helperRank s') (g := helperRank s) (isHelper_iff.mp hv)
          fun u _ hne => by
            rw [helperRank, helperRank]
            show _ + Function.update s.start v _ u * _ = _
            rw [update_of_ne hne]
        have hpermit : helperRank s' v = permitRank job.range false := by
          show (s.helper v).rank s.desc.range s.quit +
            Function.update s.start v _ v * permitRank s.desc.range s.quit = _
          rw [update_self, hsleep.start, giveSem_zero, hsleep.helper, hquit, hdesc,
            HelperPc.rank, Nat.zero_add, Nat.one_mul]
          rfl
        rw [hsleep.rank_eq, hpermit] at hsum
        obtain ⟨m, hm⟩ : ∃ m, S.workers - v = m + 1 := ⟨S.workers - v - 1, by have := hv.2; omega⟩
        have hm' : S.workers - (v + 1) = m := by omega
        rw [rank, rank, hpc, helpersRank, helpersRank]
        show MasterPc.rank S (.wake k (v + 1)) + _ < _
        simp only [MasterPc.rank, hrange, hm, hm', Nat.succ_mul]
        simp only [permitRank, Bool.false_eq_true, if_false] at hsum
        omega
      · cases h
        rw [rank, rank, hpc]
        show MasterPc.rank S (.work k 0) + helpersRank S s < _
        simp only [MasterPc.rank, hrange]
        omega
    | @work i hle hpc hevs =>
      rw [stepMaster_of_call (by rw [hpc]; rfl) hcall, hpc, stepCall] at h
      have hlen := sliceLength_le job.range (S.nSlices job) 0
      split_ifs at h with hlt
      · cases h
        rw [rank, rank, hpc]
        show MasterPc.rank S (.inside k i) + helpersRank S s < _
        simp only [MasterPc.rank, hrange]
        omega
      · cases h
        rw [rank, rank, hpc]
        show MasterPc.rank S (.gather k 1) + helpersRank S s < _
        simp only [MasterPc.rank, hrange]
        omega
    | @inside i hlt hpc hevs =>
      rw [stepMaster_of_call (by rw [hpc]; rfl) hcall, hpc, stepCall] at h
      cases h
      rw [rank, rank, hpc]
      show MasterPc.rank S (.work k (i + 1)) + helpersRank S s < _
      simp only [MasterPc.rank, hrange]
      omega
    | @gather v hpos hle hpc hevs =>
      rw [stepMaster_of_call (by rw [hpc]; rfl) hcall, hpc, stepCall] at h
      split_ifs at h with hlt hdone
      · cases h
        have hworkers := lt_workers_of_lt_nSlices hlt
        rw [rank, rank, hpc]
        show MasterPc.rank S (.gather k (v + 1)) + helpersRank S s < _
        simp only [MasterPc.rank]
        omega
      · cases h
        rw [rank, rank, hpc]
        show MasterPc.rank S (.idle (k + 1)) + helpersRank S s < _
        simp only [MasterPc.rank]
        omega
  | @dismiss v hpc hpos hle hhist hquit hleaving hdormant =>
    rw [stepMaster, hpc] at h
    simp only [MasterPc.call?, Option.bind_none, stepDestroy] at h
    split_ifs at h with hlt
    · cases h
      have hv : IsHelper S v := ⟨hpos, hlt⟩
      have hsleep := hdormant v hv (le_refl v)
      set s' : PoolState Fn Ctx := { s with
        master := .dismiss (v + 1)
        start := Function.update s.start v (giveSem S.platform.semLimit (s.start v)) } with hs'
      have hsum := sum_update (f := helperRank s') (g := helperRank s) (isHelper_iff.mp hv)
        fun u _ hne => by
          rw [helperRank, helperRank]
          show _ + Function.update s.start v _ u * _ = _
          rw [update_of_ne hne]
      have hpermit : helperRank s' v = 2 := by
        show (s.helper v).rank s.desc.range s.quit +
          Function.update s.start v _ v * permitRank s.desc.range s.quit = _
        rw [update_self, hsleep.start, giveSem_zero, hsleep.helper, hquit,
          HelperPc.rank, Nat.zero_add, Nat.one_mul]
        rfl
      rw [rank, rank, hpc, helpersRank, helpersRank]
      show MasterPc.rank S (.dismiss (v + 1)) + _ < _
      simp only [MasterPc.rank]
      omega
    · cases h
      rw [rank, rank, hpc]
      show MasterPc.rank S (.join 1) + helpersRank S s < _
      simp only [MasterPc.rank]
      omega
  | @join v hpc hpos hle hhist hquit hgone hleaving =>
    rw [stepMaster, hpc] at h
    simp only [MasterPc.call?, Option.bind_none, stepDestroy] at h
    split_ifs at h with hlt
    · split at h
      · cases h
        rw [rank, rank, hpc]
        show MasterPc.rank S (.join (v + 1)) + helpersRank S s < _
        simp only [MasterPc.rank]
        omega
      · cases h
    · cases h
      rw [rank, rank, hpc]
      show MasterPc.rank S .freed + helpersRank S s < _
      simp only [MasterPc.rank]
      omega
  | freed hpc hhist hgone =>
    rw [stepMaster, hpc] at h
    cases h

/-- Every step lowers the rank. -/
theorem rank_lt_of_step (hinv : Inv S tr s) (h : next S w s = some (s', evs)) :
    rank S s' < rank S s := by
  rw [next] at h
  split_ifs at h with hzero hworkers
  · exact rank_lt_of_stepMaster hinv h
  · exact rank_lt_of_stepHelper ⟨Nat.pos_of_ne_zero hzero, hworkers⟩ h

/-! ### What the pool guarantees -/

/-- The helpers do not read the descriptor while the master writes it. -/
theorem Inv.not_reads (h : Inv S tr s) (hwrites : s.master.Writes) (hw : IsHelper S w) :
    ¬(s.helper w).Reads := by
  cases h with
  | between hpc => simp [hpc, MasterPc.Writes] at hwrites
  | alone hcall hhist htr halone =>
    obtain ⟨i, ⟨-, hpc, -⟩ | ⟨-, hpc, -⟩⟩ := halone <;> simp [hpc, MasterPc.Writes] at hwrites
  | store hcall hslices hhist htr hstored hquit hdormant =>
    rw [(hdormant w hw).helper]
    exact fun h => h
  | fork hcall hslices hhist htr hdesc hquit hbody hmaster =>
    cases hmaster with
    | wake _ _ hpc | work _ hpc | inside _ hpc | gather _ _ hpc =>
      simp [hpc, MasterPc.Writes] at hwrites
  | dismiss hpc | join hpc | freed hpc => simp [hpc, MasterPc.Writes] at hwrites

/-- Between two calls, no semaphore has a permit. -/
theorem Inv.of_idle {k : ℕ} (h : Inv S tr s) (hidle : s.master = .idle k) :
    History S k tr ∧ ∀ w, IsHelper S w → Dormant s w := by
  cases h with
  | between hpc hhist hquit hdormant =>
    rw [hidle] at hpc
    cases hpc
    exact ⟨hhist, hdormant⟩
  | alone hcall hhist htr halone =>
    obtain ⟨i, ⟨-, hpc, -⟩ | ⟨-, hpc, -⟩⟩ := halone <;> simp [hidle] at hpc
  | store hcall hslices hhist htr hstored =>
    rcases hstored with hpc | ⟨hpc, -⟩ | ⟨hpc, -⟩ | ⟨hpc, -⟩ <;> simp [hidle] at hpc
  | fork hcall hslices hhist htr hdesc hquit hbody hmaster =>
    cases hmaster with
    | wake _ _ hpc | work _ hpc | inside _ hpc | gather _ _ hpc => simp [hidle] at hpc
  | dismiss hpc | join hpc | freed hpc => simp [hidle] at hpc

/-- What the pool guarantees, in every order of the steps. -/
structure ForkJoinCorrect (S : Session Fn Ctx) : Prop where
  /-- When a call has returned, it and the calls before it have invoked their functions once for
  every index and all of these invocations have ended. No semaphore has a permit then. -/
  calls : ∀ tr s, PoolRun S tr s → ∀ k, s.master = .idle k →
    History S k tr ∧ ∀ w, IsHelper S w → s.start w = 0 ∧ s.done w = 0
  /-- No helper reads the descriptor while the master writes it. -/
  raceFree : ∀ tr s, PoolRun S tr s → s.master.Writes → ∀ w, IsHelper S w → ¬(s.helper w).Reads
  /-- The threads get stuck only when the pool is freed: then all calls have returned, and all
  helpers have exited. -/
  exits : ∀ tr s, PoolRun S tr s → ¬Interleaving.CanStep (next S) s →
    s.master = .freed ∧ History S S.calls.length tr ∧
      ∀ w, IsHelper S w → s.helper w = .exited ∧ s.start w = 0 ∧ s.done w = 0
  /-- No run goes on forever. -/
  ends : ∃ rank : PoolState Fn Ctx → ℕ, ∀ tr s, PoolRun S tr s → ∀ w s' evs,
    next S w s = some (s', evs) → rank s' < rank s

/-- Fork and join are correct, for every pool and every sequence of calls. -/
theorem forkJoin_correct (S : Session Fn Ctx) : ForkJoinCorrect S where
  calls tr s hrun k hidle := by
    obtain ⟨hhist, hdormant⟩ := (inv_of_run hrun).of_idle hidle
    exact ⟨hhist, fun w hw => ⟨(hdormant w hw).start, (hdormant w hw).done⟩⟩
  raceFree tr s hrun hwrites w hw := (inv_of_run hrun).not_reads hwrites hw
  exits tr s hrun hstuck := by
    rcases canStep_or_freed (inv_of_run hrun) with hstep | ⟨hpc, hhist, hgone⟩
    · exact absurd hstep hstuck
    · exact ⟨hpc, hhist, fun w hw => ⟨(hgone w hw).helper, (hgone w hw).start, (hgone w hw).done⟩⟩
  ends := ⟨rank S, fun tr s hrun w s' evs hstep => rank_lt_of_step (inv_of_run hrun) hstep⟩

end ModelBlaster.Pool
