import ModelBlaster.Main.Walker

/-!
# Deadlock freedom of the walker

A worker waits for a permit of a smaller entry, or for a lock whose holder can only wait for a
lock of a higher hart. Permits balance as long as the semaphore drops none: every entry that waits
for another takes one of its permits, and there is one for each of them. A semaphore with a limit
drops permits when an entry has more waiting entries than that, and then one of them waits for
ever.

## Main definitions

* `Program.tookSet`: the entries that have taken a permit of an entry;
* `Thread.given`: how many permits the owner of an entry has given;
* `waitRank`: the order in which blocked workers wait for each other;
* `Program.left`: how many steps are left of an iteration, at most;
* `State.left`: how many steps are left, at most.

## Main results

* `permits_add_took`: permits given are permits there plus permits taken;
* `walker_deadlockFree`: the workers never all wait if every entry has few waiting entries;
* `wide_deadlocks`: they do if one has too many;
* `left_lt_of_step`: every step makes them fewer;
* `walker_terminates`: the workers stop, with every entry started once and finished.
-/

namespace ModelBlaster

open List Function

variable {τ Loc Val : Type} {P : Program τ Loc Val}

/-! ### Permits given and taken -/

/-- The number of permits of entry `p` that a worker at this point has given, of `n` in all. -/
def Thread.given (t : Thread Val) (p n : ℕ) : ℕ :=
  if p < t.i then n
  else if t.i = p then
    match t.phase with
    | .give k => k
    | _ => 0
  else 0

/-- The owner of entry `c` has taken its permit of entry `p`. -/
def Program.Took (P : Program τ Loc Val) (s : State Loc Val) (p c : ℕ) : Prop :=
  ∃ v e k, P.Owns v c ∧ P.table[c]? = some e ∧ e.takes[k]? = some p ∧
    (s.threads v).HasTaken c k

open Classical in
/-- The entries that have taken a permit of entry `p`. -/
noncomputable def Program.tookSet (P : Program τ Loc Val) (s : State Loc Val) (p : ℕ) :
    Finset ℕ :=
  (Finset.range P.table.length).filter (P.Took s p)

/-- A semaphore never drops one of `n` permits. -/
def Lossless (limit : Option ℕ) (n : ℕ) : Prop := ∀ most, limit = some most → n ≤ most

variable {k c p v : ℕ} {T : List (XpurtEntry τ)} {x maxHarts : ℤ}

/-- Below its limit, a semaphore counts what is given. -/
theorem giveSem_of_lossless {limit : Option ℕ} {n : ℕ} (h : Lossless limit n) (hk : k < n) :
    giveSem limit k = k + 1 := by
  cases hlimit : limit with
  | none => rfl
  | some most =>
    have := h most hlimit
    rw [giveSem, if_pos (by omega)]

theorem Program.mem_tookSet {s : State Loc Val} :
    c ∈ P.tookSet s p ↔ P.Took s p c := by
  classical
  rw [Program.tookSet, Finset.mem_filter, Finset.mem_range, and_iff_right_iff_imp]
  rintro ⟨v, e, k, -, he, -⟩
  exact (List.getElem?_eq_some_iff.mp he).1

/-- An entry takes no semaphore twice. -/
theorem XpurtEntry.nodup_takes {e : XpurtEntry τ} (h : e.depsEntryIds.Nodup) :
    e.takes.Nodup := by
  unfold XpurtEntry.takes
  split_ifs with hnew
  · rw [nodup_append]
    refine ⟨h, nodup_singleton _, ?_⟩
    intro d hd p hp heq
    rw [mem_singleton.mp hp] at heq
    exact hnew.2 (heq ▸ hd)
  · rwa [append_nil]

/-- The semaphores that an entry takes are those of the entries that it waits for. -/
theorem WellFormed.mem_takes_iff (hT : WellFormed T) {c e : XpurtEntry τ} (hc : c ∈ T) (he : e ∈ T)
    :
    e.entryId ∈ c.takes ↔ c.entryId ∈ e.fanoutEntryIds := by
  have htakes : e.entryId ∈ c.takes ↔
      e.entryId ∈ c.depsEntryIds ∨ c.timeDepEntryId = e.entryId := by
    unfold XpurtEntry.takes
    rw [mem_append]
    refine or_congr_right' fun hdep => ?_
    constructor
    · intro hmem
      split_ifs at hmem with hnew
      · rw [mem_singleton] at hmem
        omega
      · cases hmem
    · intro heq
      rw [heq, Int.toNat_natCast, if_pos ⟨by omega, hdep⟩]
      exact mem_singleton_self _
  rw [htakes, hT.mem_fanout e he]
  constructor
  · exact fun h => ⟨c, hc, rfl, h⟩
  · rintro ⟨c', hc', heq, h⟩
    have hsame := hT.get_entryId hc'
    rw [heq, hT.get_entryId hc] at hsame
    rwa [Option.some.inj hsame]

/-- Semaphores are those of smaller entries. -/
theorem WellFormed.lt_of_mem_takes (hT : WellFormed T) {c : XpurtEntry τ} (hc : c ∈ T)
    (hp : p ∈ c.takes) : p < c.entryId := by
  rcases mem_append.mp hp with hdep | htime
  · exact hT.deps_lt c hc p hdep
  · split_ifs at htime with hnew
    · rw [mem_singleton] at htime
      rcases hT.timeDep_lt c hc with hnone | ⟨q, hq, hlt⟩
      · omega
      · rw [hq, Int.toNat_natCast] at htime
        rwa [htime]
    · cases htime

variable [DecidableEq Loc] {w i : ℕ} {wa : Worker} {e : XpurtEntry τ} {s s' : State Loc Val}
  {tr evs : List Event}

/-- The counters of the locks and permits of a worker stay in range. -/
def InRange (t : Thread Val) (e : XpurtEntry τ) : Prop :=
  match t.phase with
  | .unlock k => k ≤ e.lockOrder.length
  | .give k => k ≤ e.nFanout
  | _ => True

/-- A worker releases no more locks than it took, and gives no more permits than it should. -/
theorem inRange_of_run (h : P.Run tr s) :
    ∀ w e, P.table[(s.threads w).i]? = some e → InRange (s.threads w) e := by
  refine h.invariant
    (I := fun _ s => ∀ w e, P.table[(s.threads w).i]? = some e → InRange (s.threads w) e)
    (fun _ _ _ => trivial) ?_
  intro tr evs s s' w wa i e _ _ hI _ he hi hcase v x hx
  by_cases hv : v = w
  swap
  · rw [hcase.threads_of_ne hv] at hx ⊢
    exact hI v x hx
  subst hv
  have hold := hI v e (by rw [hi]; exact he)
  cases hcase with
  | halt => exact hI v x hx
  | @unlock k _ ht hk =>
    rw [State.goto_threads, update_self] at hx ⊢
    rw [he] at hx
    cases hx
    rw [ht] at hold
    exact Nat.le_of_succ_le hold
  | @give k ht hk =>
    rw [State.goto_threads, update_self] at hx ⊢
    rw [he] at hx
    cases hx
    exact hk
  | stored ht hk =>
    rw [State.goto_threads, update_self] at hx ⊢
    rw [he] at hx
    cases hx
    exact le_rfl
  | _ ht =>
    simp [InRange]

section
variable (h : StepCase P w wa i e s s' evs)
include h

/-- Semaphores stay taken. -/
theorem StepCase.hasTaken_mono {j : ℕ} (htaken : (s.threads v).HasTaken j k) :
    (s'.threads v).HasTaken j k := by
  by_cases hv : v = w
  swap
  · rwa [h.threads_of_ne hv]
  subst hv
  cases h with
  | halt => exact htaken
  | _ ht =>
    simp only [Thread.HasTaken, State.goto_threads, update_self, ht] at htaken ⊢
    grind

/-- Permits stay taken. -/
theorem StepCase.took_mono (hc : P.Took s p c) :
    P.Took s' p c := by
  obtain ⟨v, x, k, hown, hx, hk, htaken⟩ := hc
  exact ⟨v, x, k, hown, hx, hk, h.hasTaken_mono htaken⟩

/-- When a permit is newly taken. -/
theorem StepCase.took_cases (hwa : P.workers[w]? = some wa) (he : P.table[i]? = some e)
    (hc : P.Took s' p c) : P.Took s p c ∨
      (c = i ∧ s.permits p ≠ 0 ∧
        s'.permits = Function.update s.permits p (s.permits p - 1)) := by
  obtain ⟨v, x, k, hown, hx, hk, htaken⟩ := hc
  by_cases hv : v = w
  swap
  · rw [h.threads_of_ne hv] at htaken
    exact Or.inl ⟨v, x, k, hown, hx, hk, htaken⟩
  subst hv
  rcases h.hasTaken htaken with hold | ⟨rfl, hnew⟩
  · exact Or.inl ⟨v, x, k, hown, hx, hk, hold⟩
  rw [he] at hx
  cases hx
  rcases hnew with hclaim | hlen | ⟨p', hp', hpos, -, hpermits⟩
  · exact absurd (hown.claims hwa he) hclaim
  · rw [getElem?_eq_none hlen] at hk
    cases hk
  · rw [hp'] at hk
    cases hk
    exact Or.inr ⟨rfl, hpos, hpermits⟩

/-- Unless permits go down, nobody takes one. -/
theorem StepCase.tookSet_eq (hwa : P.workers[w]? = some wa) (he : P.table[i]? = some e)
    (hpermits : ∀ p, s.permits p ≤ s'.permits p) (p : ℕ) : P.tookSet s' p = P.tookSet s p := by
  ext c
  rw [Program.mem_tookSet, Program.mem_tookSet]
  refine ⟨fun hc => ?_, h.took_mono⟩
  rcases h.took_cases hwa he hc with hold | ⟨-, hpos, hdown⟩
  · exact hold
  · have := hpermits p
    rw [hdown, update_self] at this
    omega

/-- Owners of entries give no permits except in the giving phase. -/
theorem StepCase.given_eq (hwa : P.workers[w]? = some wa) (he : P.table[i]? = some e)
    (hrange : InRange (s.threads w) e) {x : XpurtEntry τ} (hown : P.Owns v p)
    (hx : P.table[p]? = some x) (hgive : ∀ k, s'.threads w = ⟨i, .give (k + 1)⟩ → p ≠ i) :
    (s'.threads v).given p x.nFanout = (s.threads v).given p x.nFanout := by
  by_cases hv : v = w
  swap
  · rw [h.threads_of_ne hv]
  subst hv
  cases h with
  | skip ht hclaim =>
    -- The worker does not claim the entry that it passes.
    have hne : p ≠ i := by
      rintro rfl
      exact hclaim (hown.claims hwa he)
    simp only [Thread.given, State.goto_threads, update_self, ht]
    grind
  | next ht hk =>
    rw [ht] at hrange
    simp only [Thread.given, State.goto_threads, update_self, ht]
    have hle : _ ≤ e.nFanout := hrange
    grind
  | give ht hk =>
    have hne := hgive _ (update_self ..)
    simp only [Thread.given, State.goto_threads, update_self, ht]
    grind
  | halt => rfl
  | _ ht =>
    simp only [Thread.given, State.goto_threads, update_self, ht]

end

/-- The permits that an entry has given are there or were taken, unless its semaphore drops
some. -/
theorem permits_add_took (haudit : P.Audited) (hT : WellFormed P.table) (h : P.Run tr s) :
    ∀ p x v, P.table[p]? = some x → Lossless P.semLimit x.nFanout → P.Owns v p →
      s.permits p + (P.tookSet s p).card = (s.threads v).given p x.nFanout := by
  refine h.invariant (I := fun _ s => ∀ p x v, P.table[p]? = some x →
    Lossless P.semLimit x.nFanout → P.Owns v p →
      s.permits p + (P.tookSet s p).card = (s.threads v).given p x.nFanout) ?_ ?_
  · intro p x v _ _ _
    have hnone : P.tookSet P.start p = ∅ := by
      refine Finset.eq_empty_of_forall_notMem fun c hc => ?_
      obtain ⟨_, _, _, _, _, _, hlt | ⟨-, hfalse⟩⟩ := Program.mem_tookSet.mp hc
      · exact absurd hlt (Nat.not_lt_zero c)
      · exact hfalse
    rw [hnone]
    show 0 + 0 = Thread.given (⟨0, .scan⟩ : Thread Val) p x.nFanout
    simp [Thread.given]
  intro tr evs s s' w wa i e hrun _ hI hwa he hi hcase p x v hx hloss hown
  have hrange := inRange_of_run hrun w e (by rw [hi]; exact he)
  have hbusy : (s.threads w).phase ≠ .scan → P.Owns w i := hi ▸ owns_of_run hrun w
  have hold := hI p x v hx hloss hown
  have hstep := hcase
  -- Nothing changes unless the worker takes or gives a permit.
  have hsame : s'.permits = s.permits → (∀ k, s'.threads w = ⟨i, .give (k + 1)⟩ → p ≠ i) →
      s'.permits p + (P.tookSet s' p).card = (s'.threads v).given p x.nFanout := by
    intro hpermits hgive
    rw [hpermits, hstep.tookSet_eq hwa he (by simp [hpermits]),
      hstep.given_eq hwa he hrange hown hx hgive]
    exact hold
  cases hcase with
  | @take k q ht hk hpos =>
    have hgiven := hstep.given_eq hwa he hrange hown hx (by simp [State.goto])
    rw [hgiven]
    by_cases hpq : p = q
    · subst hpq
      have hmine := hbusy (by simp [ht])
      have hnot : i ∉ P.tookSet s p := by
        intro hmem
        obtain ⟨v', x', k', hown', hx', hk', htaken⟩ := Program.mem_tookSet.mp hmem
        rw [he] at hx'
        cases hx'
        -- The entry takes the semaphore at one position only.
        have hpos' : k' = k := by
          have hnodup := XpurtEntry.nodup_takes (hT.deps_nodup e (mem_of_getElem? he))
          refine (getElem?_inj ?_ hnodup).mp (hk'.trans hk.symm)
          exact (List.getElem?_eq_some_iff.mp hk').1
        rw [hown'.unique haudit hmine, ht, hpos', Thread.HasTaken] at htaken
        simp at htaken
      have htook : P.tookSet ({ s with
          permits := Function.update s.permits p (s.permits p - 1) }.goto w i (.wait (k + 1))) p =
          insert i (P.tookSet s p) := by
        ext c
        rw [Finset.mem_insert, Program.mem_tookSet, Program.mem_tookSet]
        constructor
        · intro hc
          rcases hstep.took_cases hwa he hc with hc | ⟨rfl, -⟩
          · exact Or.inr hc
          · exact Or.inl rfl
        · rintro (rfl | hc)
          · exact ⟨w, e, k, hmine, he, hk, Or.inr (by simp [State.goto])⟩
          · exact hstep.took_mono hc
      rw [htook, Finset.card_insert_of_notMem hnot]
      simp only [State.goto, update_self]
      omega
    · have htook : ∀ c, P.Took ({ s with
          permits := Function.update s.permits q (s.permits q - 1) }.goto w i (.wait (k + 1))) p c ↔
          P.Took s p c := by
        intro c
        refine ⟨fun hc => ?_, hstep.took_mono⟩
        rcases hstep.took_cases hwa he hc with hc | ⟨-, hp, hdown⟩
        · exact hc
        · have := congrFun hdown p
          simp only [State.goto, update_self, update_of_ne hpq] at this
          omega
      have hset : P.tookSet ({ s with
          permits := Function.update s.permits q (s.permits q - 1) }.goto w i (.wait (k + 1))) p =
          P.tookSet s p := by
        ext c
        rw [Program.mem_tookSet, Program.mem_tookSet, htook]
      rw [hset]
      simpa only [State.goto, update_of_ne hpq] using hold
  | @give k ht hk =>
    by_cases hpi : p = i
    · subst hpi
      rw [he] at hx
      cases hx
      have hvw : v = w := hown.unique haudit (hbusy (by simp [ht]))
      subst hvw
      have hcount : s.permits p + (P.tookSet s p).card = k := by
        rw [hold, ht]
        simp [Thread.given]
      have hgive := giveSem_of_lossless (k := s.permits p) hloss (by omega)
      have htook := hstep.tookSet_eq hwa he (by
        intro q
        simp only [State.goto, update_apply]
        split_ifs with hq
        · rw [hq, hgive]
          omega
        · exact le_rfl) p
      rw [htook]
      simp only [State.goto, update_self, hgive, Thread.given]
      simp
      omega
    · have htook := hstep.tookSet_eq hwa he (by
        intro q
        simp only [State.goto, update_apply, giveSem]
        split_ifs with hq
        · subst hq
          split <;> [omega; (split_ifs <;> omega)]
        · exact le_rfl) p
      rw [htook, hstep.given_eq hwa he hrange hown hx (fun _ _ => hpi)]
      simpa only [State.goto, update_of_ne hpi] using hold
  | halt ht => exact hsame rfl (by simp [ht])
  | _ ht => exact hsame rfl (by simp [State.goto])

/-! ### Blocked workers -/

/-- What an unfinished worker can be blocked at. -/
theorem blocked_cases (hwa : P.workers[w]? = some wa) (he : P.table[(s.threads w).i]? = some e)
    (hhalt : s.halted = false) (hrange : InRange (s.threads w) e) (h : stepWorker P w s = none) :
    (∃ k p, (s.threads w).phase = .wait k ∧ e.takes[k]? = some p ∧ s.permits p = 0) ∨
      ∃ k x v, (s.threads w).phase = .lock k ∧ e.lockOrder[k]? = some x ∧
        s.holder x = some v := by
  have hentry : stepEntry P w wa (s.threads w).i e s = none := by
    simpa [stepWorker, hhalt, hwa, he] using h
  unfold stepEntry at hentry
  split at hentry
  next => split_ifs at hentry
  next k hphase =>
    split at hentry
    next p hk =>
      split_ifs at hentry with hzero
      exact Or.inl ⟨k, p, hphase, hk, hzero⟩
    next => cases hentry
  next => split_ifs at hentry
  next k hphase =>
    split at hentry
    next x hk =>
      split_ifs at hentry with hheld
      obtain ⟨v, hv⟩ := Option.ne_none_iff_exists'.mp hheld
      exact Or.inr ⟨k, x, v, hphase, hk, hv⟩
    next => split_ifs at hentry
  next => split at hentry <;> cases hentry
  next => split at hentry <;> cases hentry
  next k hphase =>
    split at hentry
    next => cases hentry
    next k =>
      split at hentry
      next => cases hentry
      next hnone =>
        rw [InRange, hphase] at hrange
        exact absurd hrange (by simpa using hnone)
  next =>
    simp only at hentry
    split_ifs at hentry
  next => split at hentry <;> cases hentry
  next => split_ifs at hentry

/-- The hart whose lock a worker takes next. -/
def Program.wants (P : Program τ Loc Val) (t : Thread Val) : Option ℤ :=
  match t.phase with
  | .lock k => P.table[t.i]?.bind fun e => e.lockOrder[k]?
  | _ => none

/-- Who waits for whom: workers at a semaphore wait for smaller entries, and workers at a lock
wait for workers at a lock of a higher hart, or for a worker that waits for nobody. -/
def waitRank (P : Program τ Loc Val) (maxHarts : ℤ) (t : Thread Val) : ℕ ×ₗ ℕ :=
  match t.phase with
  | .wait _ => toLex (1, t.i)
  | _ => toLex (0, match P.wants t with
    | some x => (maxHarts - x).toNat
    | none => 0)

/-- Before the positions of a sorted list without repetition are smaller members. -/
private theorem lt_of_mem_take {order : List ℤ} (hsorted : order.Pairwise (· ≤ ·))
    (hnodup : order.Nodup) {y : ℤ} (hx : x ∈ order.take k) (hy : order[k]? = some y) :
    x < y := by
  obtain ⟨j, hj, rfl⟩ := mem_iff_getElem.mp hx
  rw [length_take] at hj
  obtain ⟨hk, rfl⟩ := List.getElem?_eq_some_iff.mp hy
  have hstrict : order.Pairwise (· < ·) := (hsorted.and hnodup).imp fun h => lt_of_le_of_ne h.1 h.2
  rw [getElem_take]
  exact pairwise_iff_getElem.mp hstrict j k _ hk (by omega)

/-- A worker that waits for a permit waits for an unfinished worker at a smaller entry. -/
theorem waits_for_smaller (haudit : P.Audited) (hT : WellFormed P.table)
    (hloss : ∀ e ∈ P.table, Lossless P.semLimit e.nFanout) (hrun : P.Run tr s)
    (he : P.table[(s.threads w).i]? = some e) (hphase : (s.threads w).phase = .wait k)
    (hk : e.takes[k]? = some p) (hzero : s.permits p = 0) :
    ∃ v, v < P.workers.length ∧ (s.threads v).i < (s.threads w).i := by
  have hid := hT.entryId_get he
  have hmem := mem_of_getElem? he
  have hlt : p < (s.threads w).i := hid ▸ hT.lt_of_mem_takes hmem (mem_of_getElem? hk)
  have hlen := (List.getElem?_eq_some_iff.mp he).1
  obtain ⟨x, hx⟩ : ∃ x, P.table[p]? = some x := ⟨_, getElem?_eq_getElem (hlt.trans hlen)⟩
  have hxmem := mem_of_getElem? hx
  obtain ⟨v, hv⟩ := P.exists_owns haudit (hlt.trans hlen)
  refine ⟨v, ?_, ?_⟩
  · obtain ⟨wv, -, hwv, -⟩ := hv
    exact (List.getElem?_eq_some_iff.mp hwv).1
  by_contra hge
  -- Then the owner has given all its permits, and all of them were taken, but not by this entry.
  have hbalance := permits_add_took haudit hT hrun p x v hx (hloss x hxmem) hv
  rw [hzero, Nat.zero_add, Thread.given, if_pos (by omega)] at hbalance
  have hmine : P.Owns w (s.threads w).i := owns_of_run hrun w (by simp [hphase])
  have hnot : (s.threads w).i ∉ P.tookSet s p := by
    intro hc
    obtain ⟨v', x', k', hown', hx', hk', htaken⟩ := Program.mem_tookSet.mp hc
    rw [he] at hx'
    cases hx'
    have hkk : k' = k := by
      have hnodup := XpurtEntry.nodup_takes (hT.deps_nodup e hmem)
      refine (getElem?_inj ?_ hnodup).mp (hk'.trans hk.symm)
      exact (List.getElem?_eq_some_iff.mp hk').1
    rw [hown'.unique haudit hmine, hkk, Thread.HasTaken, hphase] at htaken
    simp at htaken
  have hsub : insert (s.threads w).i (P.tookSet s p) ⊆ x.fanoutEntryIds.toFinset := by
    have hfan : ∀ {c y}, P.table[c]? = some y → p ∈ y.takes → c ∈ x.fanoutEntryIds.toFinset := by
      intro c y hy hp
      have hiff := hT.mem_takes_iff (mem_of_getElem? hy) hxmem
      rw [hT.entryId_get hx, hT.entryId_get hy] at hiff
      exact mem_toFinset.mpr (hiff.mp hp)
    intro c hc
    rcases Finset.mem_insert.mp hc with rfl | hc
    · exact hfan he (mem_of_getElem? hk)
    · obtain ⟨_, y, _, -, hy, hk', -⟩ := Program.mem_tookSet.mp hc
      exact hfan hy (mem_of_getElem? hk')
  have hcard := Finset.card_le_card hsub
  rw [Finset.card_insert_of_notMem hnot, hbalance] at hcard
  have hfull := toFinset_card_le x.fanoutEntryIds
  unfold XpurtEntry.nFanout at hcard
  omega

/-- A worker that waits for a lock waits for an unfinished worker of lower rank. -/
theorem waits_for_higher (hT : WellFormed P.table)
    (hharts : ∀ e ∈ P.table, ∀ x ∈ e.harts, x < maxHarts) (hrun : P.Run tr s)
    (he : P.table[(s.threads w).i]? = some e) (hphase : (s.threads w).phase = .lock k)
    (hk : e.lockOrder[k]? = some x) (hv : s.holder x = some v) :
    v < P.workers.length ∧ (s.threads v).i < P.table.length ∧
      waitRank P maxHarts (s.threads v) < waitRank P maxHarts (s.threads w) := by
  obtain ⟨y, hy, hmem⟩ := (holder_iff_of_run hT.harts_nodup hrun x v).mp hv
  have hbusy : (s.threads v).phase ≠ .scan ∧ ∀ k, (s.threads v).phase ≠ .wait k := by
    revert hmem
    cases (s.threads v).phase <;> simp [Phase.locks]
  have hown := owns_of_run hrun v hbusy.1
  have hrankw : waitRank P maxHarts (s.threads w) = toLex (0, (maxHarts - x).toNat) := by
    simp [waitRank, Program.wants, hphase, he, hk]
  have hxlt : x < maxHarts :=
    hharts e (mem_of_getElem? he) x (XpurtEntry.mem_lockOrder.mp (mem_of_getElem? hk))
  refine ⟨?_, (List.getElem?_eq_some_iff.mp hy).1, ?_⟩
  · obtain ⟨wv, -, hwv, -⟩ := hown
    exact (List.getElem?_eq_some_iff.mp hwv).1
  have hrankv : waitRank P maxHarts (s.threads v) = toLex (0, match P.wants (s.threads v) with
      | some x => (maxHarts - x).toNat
      | none => 0) := by
    unfold waitRank
    split
    next k hwait => exact absurd hwait (hbusy.2 k)
    next => rfl
  rw [hrankv, hrankw, Prod.Lex.toLex_lt_toLex]
  refine Or.inr ⟨rfl, ?_⟩
  cases hwants : P.wants (s.threads v) with
  | none =>
    show 0 < (maxHarts - x).toNat
    omega
  | some z =>
    -- Locks are taken in ascending order.
    have hxz : x < z := by
      unfold Program.wants at hwants
      split at hwants
      next k' hlock =>
        rw [hy, Option.bind_some] at hwants
        rw [hlock] at hmem
        exact lt_of_mem_take (pairwise_insertionSort _ _)
          (y.nodup_lockOrder (hT.harts_nodup y (mem_of_getElem? hy))) hmem hwants
      next => cases hwants
    show (maxHarts - z).toNat < (maxHarts - x).toNat
    omega

/-- Some worker can step as long as one is unfinished, unless a semaphore drops permits. -/
theorem canStep_of_lossless (haudit : P.Audited) (hT : WellFormed P.table)
    (hharts : ∀ e ∈ P.table, ∀ x ∈ e.harts, x < maxHarts)
    (hloss : ∀ e ∈ P.table, Lossless P.semLimit e.nFanout) (hrun : P.Run tr s)
    (hhalt : s.halted = false) (hw : w < P.workers.length)
    (hunfinished : (s.threads w).i < P.table.length) :
    Interleaving.CanStep (stepWorker P) s := by
  refine Interleaving.canStep_of_rank wellFounded_lt (fun w => waitRank P maxHarts (s.threads w))
    (fun w => w < P.workers.length ∧ (s.threads w).i < P.table.length) ?_
    ⟨hw, hunfinished⟩
  rintro w ⟨hw, hunfinished⟩
  have hwa := getElem?_eq_getElem hw
  have he := getElem?_eq_getElem hunfinished
  cases hnext : stepWorker P w s with
  | some r => exact Or.inl ⟨r, rfl⟩
  | none =>
    right
    rcases blocked_cases hwa he hhalt (inRange_of_run hrun w _ he) hnext with
      ⟨k, p, hphase, hk, hzero⟩ | ⟨k, x, v, hphase, hk, hv⟩
    · obtain ⟨v, hv, hlt⟩ := waits_for_smaller haudit hT hloss hrun he hphase hk hzero
      refine ⟨v, ⟨hv, hlt.trans hunfinished⟩, ?_⟩
      have hrankw : waitRank P maxHarts (s.threads w) = toLex (1, (s.threads w).i) := by
        simp [waitRank, hphase]
      show waitRank P maxHarts (s.threads v) < waitRank P maxHarts (s.threads w)
      rw [hrankw]
      unfold waitRank
      split
      next => exact Prod.Lex.toLex_lt_toLex.mpr (Or.inr ⟨rfl, hlt⟩)
      next => exact Prod.Lex.toLex_lt_toLex.mpr (Or.inl Nat.zero_lt_one)
    · obtain ⟨hlen, hi, hrank⟩ := waits_for_higher hT hharts hrun he hphase hk hv
      exact ⟨v, ⟨hlen, hi⟩, hrank⟩

section Load

variable [LinearOrder τ] [Zero τ] [Add τ] {env : Env} {doc : Doc τ} {irs : PyDict String Ir}
  {reg : CoreRegistry} {slots : SlotKinds} {lim : Limits} {pools : List (List ℤ)}

omit [DecidableEq Loc] in
/-- The start-up checks that harts index the lock array. -/
theorem harts_lt_of_startUp (hload : load env doc irs reg slots = .ok P.table)
    (hstart : startUp lim P.kinds P.table = .ok (P.workers, pools)) :
    ∀ e ∈ P.table, ∀ x ∈ e.harts, x < lim.maxHarts := by
  simp only [startUp, Fallible.bind_eq_ok_iff] at hstart
  obtain ⟨_, -, _, -, pools', hpools, -⟩ := hstart
  have hrange := (initEntryRuntime_eq_ok_iff (wellFormed_of_load hload).harts_nodup).mp
    ⟨pools', hpools⟩
  exact fun e he x hx => ((hrange.1 e he).2.2 x hx).2

/-- Whatever the order of their steps, the workers that run a table of the ingest never all wait
while one of them is unfinished, on the POSIX build for every table, and on the Zephyr build for
the tables without an entry that more than 32 others wait for. -/
theorem walker_deadlockFree (hload : load env doc irs reg slots = .ok P.table)
    (hstart : startUp lim P.kinds P.table = .ok (P.workers, pools))
    (hsem : P.semLimit = posixLimit ∨ (P.semLimit = zephyrLimit ∧ ∀ e ∈ P.table, e.nFanout ≤ 32))
    (hrun : P.Run tr s) (hhalt : s.halted = false) (hw : w < P.workers.length)
    (hunfinished : (s.threads w).i < P.table.length) :
    Interleaving.CanStep (stepWorker P) s := by
  have hloss : ∀ e ∈ P.table, Lossless P.semLimit e.nFanout := by
    intro e he most hmost
    rcases hsem with hposix | ⟨hzephyr, hfew⟩
    · rw [hposix] at hmost
      cases hmost
    · rw [hzephyr] at hmost
      cases hmost
      exact hfew e he
  exact canStep_of_lossless (audited_of_startUp hstart) (wellFormed_of_load hload)
    (harts_lt_of_startUp hload hstart) hloss hrun hhalt hw hunfinished

end Load

/-- In the small binary, some worker can step at first. -/
theorem walker_deadlockFree_head :
    Interleaving.CanStep (stepWorker headProgram) headProgram.start :=
  walker_deadlockFree
    (show load {} ⟨some headRaw, none, []⟩ pairIrs pairRegistry {} = .ok headTable by
      decide)
    (show startUp {} ["rvv", "scalar"] headTable = .ok (headProgram.workers, []) by
      decide)
    (Or.inr ⟨rfl, by decide⟩) .start rfl (show 0 < 2 by decide) (show 0 < 2 by decide)

/-! ### An entry with many waiting entries -/

/-- A network of one op and 33 that depend on it. -/
def wideIr : Ir :=
  ⟨{ op := "linear_s8", dispatchId := some 0 } :: (List.range 33).map fun n =>
    { op := "linear_s8", dispatchId := some (n + 1), dependsOn := [0] }⟩

/-- The network under its name. -/
def wideIrs : PyDict String Ir := ⟨[("mlp", wideIr)], by decide⟩

/-- A schedule of one job of the network, all of it on the vector core. -/
def wideRaw : RawTable ℕ where
  items := (List.range 34).map fun n : ℕ =>
    ("mlp_dispatch_" ++ toString n,
      { id := (n : ℤ), hardwareTarget := some "CPU_P#0", duration := some 5, startTime := some n
        dependencies := if n = 0 then [] else ["mlp_dispatch_0"], jobName := "mlp" })
  nodup := by decide

/-- The table of that schedule: 33 entries wait for the first one. -/
def wideTable : List (XpurtEntry ℕ) :=
  (List.range 34).map fun n =>
    { entryId := n, scheduleKey := "mlp_dispatch_" ++ toString n, jobName := "mlp"
      network := "mlp", instanceNo := 0, dispatchId := n, op := "linear_s8"
      name := "dispatch_" ++ toString n, coreName := "rvv0", coreKind := "rvv", impl := "rvv"
      hart := 1, harts := [1], startTime := n, duration := 5
      depsEntryIds := if n = 0 then [] else [0], timeDepEntryId := -1
      fanoutEntryIds := if n = 0 then (List.range 33).map (· + 1) else [] }

/-- A Zephyr binary for that table. -/
def wideProgram : Program ℕ Unit Unit where
  table := wideTable
  workers := [⟨"rvv", 1, 0, false⟩]
  kinds := ["rvv", "scalar"]
  opCount := fun net => if net = "mlp" then some 34 else none
  semLimit := zephyrLimit
  reads := fun _ => []
  writes := fun _ => []
  kernel := fun _ _ _ => ()
  outputs := fun _ => []
  init := fun _ => ()

/-- The table is one of the ingest and gets through the start-up, but its only worker gives 33
permits in a row, of which the semaphore drops one, and waits at the last entry for ever. -/
theorem wide_deadlocks :
    load {} ⟨some wideRaw, none, []⟩ wideIrs pairRegistry {} = .ok wideProgram.table ∧
      startUp {} wideProgram.kinds wideProgram.table = .ok (wideProgram.workers, []) ∧
      wideProgram.semLimit = zephyrLimit ∧
      ∃ tr s, wideProgram.Run tr s ∧ s.halted = false ∧ 0 < wideProgram.workers.length ∧
        (s.threads 0).i < wideProgram.table.length ∧
        ¬Interleaving.CanStep (stepWorker wideProgram) s := by
  refine ⟨by decide +kernel, by decide +kernel, rfl, ?_⟩
  have hend : ((Interleaving.follow (stepWorker wideProgram) (List.replicate 429 0)
      ([], wideProgram.start)).map fun r =>
        (r.2.halted, (r.2.threads 0).i, (stepWorker wideProgram 0 r.2).isNone)) =
          some (false, 33, true) := by decide +kernel
  obtain ⟨⟨tr, s⟩, hfollow, heq⟩ := Option.map_eq_some_iff.mp hend
  simp only [Prod.mk.injEq] at heq
  obtain ⟨hhalt, hi, hblocked⟩ := heq
  refine ⟨tr, s, Interleaving.run_of_follow .start hfollow, hhalt, by decide, ?_, ?_⟩
  · rw [hi]
    decide
  · rintro ⟨w, r, hstep⟩
    cases w with
    | zero => simp [hstep] at hblocked
    | succ w => simp [stepWorker, wideProgram] at hstep

end ModelBlaster

/-! ## Termination of the walker -/

namespace ModelBlaster

open List Function

variable {τ Loc Val : Type} (P : Program τ Loc Val)

/-- How many steps are left of an iteration, at most. -/
def Program.left (e : XpurtEntry τ) (phase : Phase Val) : ℕ :=
  let locks := e.lockOrder.length
  let reads := (P.reads e).length
  let writes := (P.writes e).length
  let checks := (P.outputs e.network).length
  match phase with
  | .scan => e.takes.length + 2 * locks + reads + writes + checks + e.nFanout + 10
  | .wait k => (e.takes.length - k) + 2 * locks + reads + writes + checks + e.nFanout + 9
  | .gate => 2 * locks + reads + writes + checks + e.nFanout + 8
  | .lock k => (locks - k) + locks + reads + writes + checks + e.nFanout + 7
  | .load vals => locks + (reads - vals.length) + writes + checks + e.nFanout + 6
  | .store _ k => locks + (writes - k) + checks + e.nFanout + 5
  | .unlock k => k + checks + e.nFanout + 4
  | .count => checks + e.nFanout + 3
  | .verify vals => (checks - vals.length) + e.nFanout + 2
  | .give k => (e.nFanout - k) + 1

/-- How many steps are left of a scan, at most. -/
def Thread.left (t : Thread Val) : ℕ :=
  match P.table[t.i]? with
  | some e => P.left e t.phase + ((P.table.drop (t.i + 1)).map (P.left · .scan)).sum
  | none => 0

/-- How many steps are left, at most. A reboot is one of them. -/
def State.left (s : State Loc Val) : ℕ :=
  (∑ w ∈ Finset.range P.workers.length, (s.threads w).left P) + if s.halted then 0 else 1

variable {P}

/-- At the head of the loop, all of the iterations are left. -/
theorem Thread.left_scan (i : ℕ) :
    Thread.left P ⟨i, .scan⟩ = ((P.table.drop i).map (P.left · .scan)).sum := by
  unfold Thread.left
  cases he : P.table[i]? with
  | none =>
    rw [drop_eq_nil_of_le (getElem?_eq_none_iff.mp he)]
    rfl
  | some e =>
    obtain ⟨hi, rfl⟩ := List.getElem?_eq_some_iff.mp he
    rw [drop_eq_getElem_cons hi, map_cons, sum_cons]

variable [DecidableEq Loc] {w i : ℕ} {wa : Worker} {e : XpurtEntry τ} {s s' : State Loc Val}
  {tr evs : List Event}

/-- A step makes the steps of its worker fewer, unless it reboots. -/
theorem StepCase.left_lt (h : StepCase P w wa i e s s' evs) (he : P.table[i]? = some e) :
    ((s'.threads w).left P < (s.threads w).left P ∧ s'.halted = s.halted) ∨
      s' = { s with halted := true } := by
  cases h with
  | halt => exact Or.inr rfl
  | skip ht | next ht =>
    refine Or.inl ⟨?_, rfl⟩
    rw [State.goto_threads, update_self, Thread.left_scan, ht]
    simp only [Thread.left, he, Program.left]
    omega
  | take ht hk | lock ht hk | load ht hk | store ht hk | verify ht hk =>
    -- There is an element at the position, and one less from the next one on.
    refine Or.inl ⟨?_, rfl⟩
    have hlt := (List.getElem?_eq_some_iff.mp hk).1
    rw [State.goto_threads, update_self, ht]
    simp only [Thread.left, he, Program.left, length_append, length_singleton]
    omega
  | _ ht =>
    refine Or.inl ⟨?_, rfl⟩
    rw [State.goto_threads, update_self, ht]
    simp only [Thread.left, he, Program.left, length_nil]
    omega

/-- Every step makes the steps that are left fewer. -/
theorem left_lt_of_step (h : stepWorker P w s = some (s', evs)) : s'.left P < s.left P := by
  obtain ⟨hhalt, wa, e, hwa, he, hcase⟩ := stepCase_of_stepWorker h
  rcases hcase.left_lt he with ⟨hlt, hsame⟩ | rfl
  · have hsum : ∑ v ∈ Finset.range P.workers.length, (s'.threads v).left P <
        ∑ v ∈ Finset.range P.workers.length, (s.threads v).left P := by
      refine Finset.sum_lt_sum (fun v _ => ?_)
        ⟨w, Finset.mem_range.mpr (List.getElem?_eq_some_iff.mp hwa).1, hlt⟩
      by_cases hv : v = w
      · rw [hv]
        exact hlt.le
      · rw [hcase.threads_of_ne hv]
    rw [State.left, State.left, hsame]
    exact Nat.add_lt_add_right hsum _
  · simp [State.left, hhalt]

/-- A reboot is one for want of a kernel. -/
theorem exists_of_halted (h : P.Run tr s) :
    s.halted = true → ∃ e ∈ P.table, e.impl ∉ P.kinds := by
  refine h.invariant (I := fun _ s => s.halted = true → ∃ e ∈ P.table, e.impl ∉ P.kinds)
    (fun hhalt => by cases hhalt) ?_
  intro tr evs s s' w wa i e _ _ hI _ he _ hcase hhalt
  cases hcase with
  | halt ht hk himpl => exact ⟨e, mem_of_getElem? he, himpl⟩
  | _ => exact hI hhalt

section Load

variable [LinearOrder τ] [Zero τ] [Add τ] {env : Env} {doc : Doc τ} {irs : PyDict String Ir}
  {reg : CoreRegistry} {slots : SlotKinds} {lim : Limits} {pools : List (List ℤ)}

/-- Whatever the order of their steps, the workers that run a table of the ingest stop after a
bounded number of steps. They stop only with every entry started once and finished, unless there
is no kernel for one. -/
theorem walker_terminates (hload : load env doc irs reg slots = .ok P.table)
    (hstart : startUp lim P.kinds P.table = .ok (P.workers, pools))
    (hsem : P.semLimit = posixLimit ∨
      (P.semLimit = zephyrLimit ∧ ∀ e ∈ P.table, e.nFanout ≤ 32)) :
    (∀ ws r, Interleaving.follow (stepWorker P) ws ([], P.start) = some r →
      ws.length ≤ P.workers.length * (P.table.map (P.left · .scan)).sum + 1) ∧
    ∀ tr s, P.Run tr s → ¬Interleaving.CanStep (stepWorker P) s →
      (s.halted = true ∧ ∃ e ∈ P.table, e.impl ∉ P.kinds) ∨
        (starts tr).Perm (List.range P.table.length) ∧ ∀ j < P.table.length, Finished tr j := by
  constructor
  · intro ws r hfollow
    have hlen := Interleaving.length_add_le_of_follow (m := State.left P)
      (fun w s s' evs hstep => left_lt_of_step hstep) hfollow
    have hinit : P.start.left P = P.workers.length * (P.table.map (P.left · .scan)).sum + 1 := by
      show (∑ w ∈ Finset.range P.workers.length, Thread.left P ⟨0, .scan⟩) + 1 = _
      rw [Thread.left_scan, drop_zero, Finset.sum_const, Finset.card_range, smul_eq_mul]
    omega
  · intro tr s hrun hstop
    cases hhalt : s.halted with
    | true => exact Or.inl ⟨rfl, exists_of_halted hrun hhalt⟩
    | false =>
      refine Or.inr ?_
      have haudit := audited_of_startUp hstart
      have hloss : ∀ e ∈ P.table, Lossless P.semLimit e.nFanout := by
        intro e he most hmost
        rcases hsem with hposix | ⟨hzephyr, hfew⟩
        · rw [hposix] at hmost
          cases hmost
        · rw [hzephyr] at hmost
          cases hmost
          exact hfew e he
      -- The owner of an entry is past it, for all the workers have come to the end.
      have hpast : ∀ j < P.table.length, ∃ v, P.Owns v j ∧ ∀ r, (s.threads v).Past j r := by
        intro j hj
        obtain ⟨v, hown⟩ := P.exists_owns haudit hj
        refine ⟨v, hown, fun r => Or.inl ?_⟩
        by_contra hle
        obtain ⟨_, _, hwv, -⟩ := hown
        exact hstop (canStep_of_lossless haudit (wellFormed_of_load hload)
          (harts_lt_of_startUp hload hstart) hloss hrun hhalt
          (List.getElem?_eq_some_iff.mp hwv).1 (by omega))
      refine ⟨?_, fun j hj => ?_⟩
      · rw [perm_ext_iff_of_nodup (nodup_starts haudit hrun) nodup_range]
        intro j
        rw [starts, mem_filterMap, mem_range]
        constructor
        · rintro ⟨ev, hev, hj⟩
          cases ev <;> cases hj
          obtain ⟨_, _, -, he, -⟩ := ((start_mem_iff hrun).mp hev).1
          exact (List.getElem?_eq_some_iff.mp he).1
        · intro hj
          obtain ⟨v, hown, hv⟩ := hpast j hj
          exact ⟨_, (start_mem_iff hrun).mpr ⟨hown, hv 4⟩, rfl⟩
      · obtain ⟨v, hown, hv⟩ := hpast j hj
        exact ⟨v, (finish_mem_iff hrun).mpr ⟨hown, hv 6⟩⟩

end Load

/-- The workers of the small binary stop. -/
theorem walker_terminates_head :
    (∀ ws r, Interleaving.follow (stepWorker headProgram) ws ([], headProgram.start) = some r →
      ws.length ≤ 2 * (headTable.map (headProgram.left · .scan)).sum + 1) ∧
    ∀ tr s, headProgram.Run tr s → ¬Interleaving.CanStep (stepWorker headProgram) s →
      (s.halted = true ∧ ∃ e ∈ headTable, e.impl ∉ headProgram.kinds) ∨
        (starts tr).Perm (List.range 2) ∧ ∀ j < 2, Finished tr j :=
  walker_terminates
    (show load {} ⟨some headRaw, none, []⟩ pairIrs pairRegistry {} = .ok headTable by
      decide)
    (show startUp {} ["rvv", "scalar"] headTable = .ok (headProgram.workers, []) by
      decide)
    (Or.inr ⟨rfl, by decide⟩)

end ModelBlaster
