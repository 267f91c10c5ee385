import ModelBlaster.Ingest.Load

/-!
# Start-up of the generated main

Before it spawns a thread, the generated `main` discovers the workers that the table needs,
audits that every entry has exactly one of them, and creates a pool for every combination of
harts that some entry reserves. Each of these can end the program.

Threads and mutexes that the operating system refuses to create are left out.

## Main definitions

* `discoverWorkers`, `claimAudit`, `initEntryRuntime`: the three phases;
* `startUp`: the phases in a row.

## Main results

* `exists_discoverWorkers_eq_ok`: discovery succeeds on few pairs, and the audit then passes;
* `initEntryRuntime_eq_ok_iff`: when the last phase succeeds.
-/

namespace ModelBlaster

open List Fallible

variable {τ : Type}

/-! ### Phases -/

/-- `MODELBLASTER_POOL_MAX_WORKERS` -/
def poolMaxWorkers : ℕ := 16

/-- The sizes of the static arrays of the generated main. -/
structure Limits where
  /-- `XPURT_MAX_WORKERS` -/
  maxWorkers : ℕ := 32
  /-- `XPURT_MAX_HARTS` -/
  maxHarts : ℤ := 256
  /-- `XPURT_MAX_POOL_WIDTH` -/
  maxPoolWidth : ℕ := 16
  /-- `XPURT_MAX_POOLS` -/
  maxPools : ℕ := 32
  /-- The array of harts of a pool is not empty, and no wider than a pool may be. -/
  width_bounds : 1 ≤ maxPoolWidth ∧ maxPoolWidth ≤ poolMaxWorkers := by decide

/-- Why the generated main gives up. -/
inductive StartupError where
  /-- `schedule uses more than ... (core_kind,hart) pairs` -/
  | tooManyWorkers (maxWorkers : ℕ)
  /-- `XPURT_MAX_WORKERS exhausted on unbound kind ...` -/
  | unboundKind (kind : String)
  /-- `entry ... has ... claimant workers, expected 1` -/
  | claimants (entryId : ℕ) (network : String) (dispatchId : ℤ) (coreKind : String) (hart : ℤ)
      (claimants : ℕ)
  /-- `composite-target runtime init failed rc=...` -/
  | entryRuntime (rc : ℤ)
deriving DecidableEq, Repr

/-- `struct xpurt_worker_arg`: what a worker is started with. Its index is its position. -/
structure Worker where
  /-- The kind whose entries it runs. -/
  kind : String
  /-- The hart it is pinned to; `-1` for an unpinned worker. -/
  hart : ℤ
  /-- Position of the kind among the compiled ones. -/
  kindIdx : ℕ
  /-- Whether it also runs the entries of its kind that are bound to no hart. -/
  claimsUnbound : Bool := false
deriving DecidableEq, Repr

/-- The claim predicate: same kind, and the hart of the entry unless it is unbound. -/
def Worker.Claims (w : Worker) (e : XpurtEntry τ) : Prop :=
  e.coreKind = w.kind ∧ if 0 ≤ e.hart then e.hart = w.hart else w.claimsUnbound = true

instance (w : Worker) (e : XpurtEntry τ) : Decidable (w.Claims e) :=
  inferInstanceAs (Decidable (_ ∧ _))

/-- The scan of the table for one kind. -/
structure KindScan where
  /-- The workers of the earlier kinds: those before `kind_first`. -/
  older : List Worker
  /-- The workers of this kind so far. -/
  mine : List Worker := []
  /-- Whether an unbound entry was seen. -/
  hasUnbound : Bool := false
deriving DecidableEq, Repr

/-- One entry of the scan. -/
def scanEntry (lim : Limits) (kind : String) (kindIdx : ℕ) (s : KindScan) (e : XpurtEntry τ) :
    Except StartupError KindScan :=
  if e.coreKind ≠ kind then .ok s
  else if e.hart < 0 then .ok { s with hasUnbound := true }
  else if e.hart ∈ s.mine.map Worker.hart then .ok s
  else if lim.maxWorkers ≤ s.older.length + s.mine.length then
    .error (.tooManyWorkers lim.maxWorkers)
  else .ok { s with mine := s.mine ++ [{ kind := kind, hart := e.hart, kindIdx := kindIdx }] }

/-- The first worker on the lowest hart, `lo` being the lowest so far. -/
def lowest (lo : Worker) : List Worker → Worker
  | [] => lo
  | w :: ws => lowest (if w.hart < lo.hart then w else lo) ws

/-- Let the worker on the lowest hart run the unbound entries. -/
def markLowest : List Worker → List Worker
  | [] => []
  | w :: ws =>
    let lo := lowest w ws
    (w :: ws).map fun v => if v.hart = lo.hart then { v with claimsUnbound := true } else v

/-- The end of the scan: somebody has to run the unbound entries. -/
def finishKind (lim : Limits) (kind : String) (kindIdx : ℕ) (s : KindScan) :
    Except StartupError (List Worker) :=
  if s.hasUnbound = false then .ok (s.older ++ s.mine)
  else if s.mine ≠ [] then .ok (s.older ++ markLowest s.mine)
  else if lim.maxWorkers ≤ s.older.length then .error (.unboundKind kind)
  else .ok (s.older ++ [{ kind := kind, hart := -1, kindIdx := kindIdx, claimsUnbound := true }])

/-- The workers of one more kind. -/
def discoverKind (lim : Limits) (T : List (XpurtEntry τ)) (ws : List Worker)
    (kindAt : String × ℕ) : Except StartupError (List Worker) := do
  let s ← T.foldlM (scanEntry lim kindAt.1 kindAt.2) { older := ws }
  finishKind lim kindAt.1 kindAt.2 s

/-- Worker-set discovery: one worker per kind and hart that the table uses. -/
def discoverWorkers (lim : Limits) (kinds : List String) (T : List (XpurtEntry τ)) :
    Except StartupError (List Worker) :=
  kinds.zipIdx.foldlM (discoverKind lim T) []

/-- The number of workers that claim an entry. -/
def claimants (ws : List Worker) (e : XpurtEntry τ) : ℕ := ws.countP fun w => w.Claims e

/-- The audit of one entry. -/
def auditEntry (ws : List Worker) (e : XpurtEntry τ) : Except StartupError Unit :=
  if claimants ws e ≠ 1 then
    .error (.claimants e.entryId e.network e.dispatchId e.coreKind e.hart (claimants ws e))
  else .ok ()

/-- Claim-coverage audit: every entry has exactly one claimant. -/
def claimAudit (ws : List Worker) (T : List (XpurtEntry τ)) : Except StartupError (List Unit) :=
  T.mapM (auditEntry ws)

/-- Whether `modelblaster_pool_create_on_harts` takes its arguments. -/
def PoolCreatable (harts : List ℤ) : Prop :=
  0 < harts.length ∧ harts.length ≤ poolMaxWorkers ∧ (∀ h ∈ harts, 0 ≤ h) ∧ harts.Nodup

instance (harts : List ℤ) : Decidable (PoolCreatable harts) :=
  inferInstanceAs (Decidable (_ ∧ _))

/-- One entry of `init_entry_runtime`: its harts have to index the lock array, and a combination
that has no pool yet gets one. Pools are told apart by the harts in the order of the entry. -/
def initEntry (lim : Limits) (pools : List (List ℤ)) (e : XpurtEntry τ) :
    Except StartupError (List (List ℤ)) :=
  if e.harts.length < 1 ∨ lim.maxPoolWidth < e.harts.length then .error (.entryRuntime (-2))
  else if ∃ h ∈ e.harts, h < 0 ∨ lim.maxHarts ≤ h then .error (.entryRuntime (-3))
  else if e.harts.length = 1 ∨ e.harts ∈ pools then .ok pools
  else if lim.maxPools ≤ pools.length then .error (.entryRuntime (-4))
  else if ¬PoolCreatable e.harts then .error (.entryRuntime (-5))
  else .ok (pools ++ [e.harts])

/-- `init_entry_runtime`: the pools, by their harts. -/
def initEntryRuntime (lim : Limits) (T : List (XpurtEntry τ)) :
    Except StartupError (List (List ℤ)) :=
  T.foldlM (initEntry lim) []

/-- The start-up of the generated main: the workers and the pools it spawns threads for. -/
def startUp (lim : Limits) (kinds : List String) (T : List (XpurtEntry τ)) :
    Except StartupError (List Worker × List (List ℤ)) := do
  let ws ← discoverWorkers lim kinds T
  let _ ← claimAudit ws T
  let pools ← initEntryRuntime lim T
  return (ws, pools)

/-! ### Discovery -/

/-- The pair of an entry. -/
def XpurtEntry.pair (e : XpurtEntry τ) : String × ℤ := (e.coreKind, e.hart)

/-- The pairs that a table uses. -/
def usedPairs (T : List (XpurtEntry τ)) : List (String × ℤ) := (T.map XpurtEntry.pair).dedup

/-- The pair of a worker. -/
def Worker.pair (w : Worker) : String × ℤ := (w.kind, w.hart)

/-- A worker stands for a pair of the table, all unbound harts of a kind counting as one. -/
def Worker.Used (T : List (XpurtEntry τ)) (w : Worker) : Prop :=
  ∃ e ∈ T, e.coreKind = w.kind ∧ max e.hart (-1) = w.hart

variable {ws : List Worker} {T : List (XpurtEntry τ)}

/-- There are at most as many workers as pairs in use. -/
theorem length_le_usedPairs (hnodup : (ws.map Worker.pair).Nodup) (hused : ∀ w ∈ ws, w.Used T) :
    ws.length ≤ (usedPairs T).length := by
  have hsub : ws.map Worker.pair ⊆ (usedPairs T).map fun p => (p.1, max p.2 (-1)) := by
    intro p hp
    obtain ⟨w, hw, rfl⟩ := mem_map.mp hp
    obtain ⟨e, he, hkind, hhart⟩ := hused w hw
    refine mem_map.mpr ⟨e.pair, ?_, ?_⟩
    · exact mem_dedup.mpr (mem_map_of_mem he)
    · show (e.coreKind, max e.hart (-1)) = (w.kind, w.hart)
      rw [hkind, hhart]
  have hlen := (hnodup.subperm hsub).length_le
  rwa [length_map, length_map] at hlen

/-- The worker on the lowest hart is one of the workers. -/
theorem lowest_mem (lo : Worker) (ws : List Worker) : lowest lo ws ∈ lo :: ws := by
  induction ws generalizing lo with
  | nil => exact mem_singleton_self lo
  | cons w ws ih =>
    have hmem := ih (if w.hart < lo.hart then w else lo)
    rw [lowest]
    split_ifs at hmem ⊢ with hlt
    · exact mem_cons_of_mem lo hmem
    · rcases mem_cons.mp hmem with heq | htail
      · exact mem_cons.mpr (Or.inl heq)
      · exact mem_cons_of_mem lo (mem_cons_of_mem w htail)

/-- Marking a worker changes no pair. -/
theorem map_pair_markLowest (ws : List Worker) :
    (markLowest ws).map Worker.pair = ws.map Worker.pair := by
  cases ws with
  | nil => rfl
  | cons w ws =>
    rw [markLowest, map_map]
    refine map_congr_left fun v _ => ?_
    show Worker.pair (if v.hart = (lowest w ws).hart then _ else v) = v.pair
    split_ifs <;> rfl

/-- Among workers on distinct harts, exactly one is marked. -/
theorem countP_markLowest (hne : ws ≠ []) (hnodup : (ws.map Worker.hart).Nodup)
    (hclear : ∀ w ∈ ws, w.claimsUnbound = false) :
    (markLowest ws).countP (fun w => w.claimsUnbound) = 1 := by
  obtain ⟨w, ws, rfl⟩ := exists_cons_of_ne_nil hne
  have hmark : (markLowest (w :: ws)).countP (fun w => w.claimsUnbound) =
      ((w :: ws).map Worker.hart).count (lowest w ws).hart := by
    rw [markLowest, countP_map, List.count, countP_map]
    refine countP_congr fun v hv => ?_
    simp only [Function.comp_apply, beq_iff_eq]
    split_ifs with heq
    · exact iff_of_true rfl heq
    · exact iff_of_false (by simp [hclear v hv]) heq
  rw [hmark]
  exact count_eq_one_of_mem hnodup (mem_map_of_mem (lowest_mem w ws))

/-- The workers found for the kinds that are done. -/
structure Discovered (T : List (XpurtEntry τ)) (done : List String) (ws : List Worker) :
    Prop where
  /-- They are of these kinds. -/
  kind_mem : ∀ w ∈ ws, w.kind ∈ done
  /-- No pair has two workers. -/
  nodup : (ws.map Worker.pair).Nodup
  /-- Every worker has entries to run. -/
  used : ∀ w ∈ ws, w.Used T
  /-- Every entry of these kinds has exactly one claimant. -/
  claimants_eq_one : ∀ e ∈ T, e.coreKind ∈ done → claimants ws e = 1

/-- The scan for one kind after some entries. -/
structure Scanned (kind : String) (older : List Worker) (seen : List (XpurtEntry τ))
    (s : KindScan) : Prop where
  older_eq : s.older = older
  /-- Workers of the kind carry no flag yet. -/
  fresh : ∀ w ∈ s.mine, w.kind = kind ∧ w.claimsUnbound = false
  nodup : (s.mine.map Worker.hart).Nodup
  /-- The harts that have a worker are those of the bound entries. -/
  hart_mem_iff : ∀ h, h ∈ s.mine.map Worker.hart ↔
    0 ≤ h ∧ ∃ e ∈ seen, e.coreKind = kind ∧ e.hart = h
  unbound_iff : s.hasUnbound = true ↔ ∃ e ∈ seen, e.coreKind = kind ∧ e.hart < 0

section Scan

variable {lim : Limits} {T : List (XpurtEntry τ)} {kind : String} {kindIdx : ℕ}
  {done : List String} {older : List Worker} {ws mine : List Worker} {s : KindScan}
  {e : XpurtEntry τ}

/-- The workers of one kind have distinct pairs once their harts are distinct. -/
private theorem nodup_pair_of_hart (h : (ws.map Worker.hart).Nodup) :
    (ws.map Worker.pair).Nodup := by
  refine List.Nodup.of_map Prod.snd ?_
  rwa [map_map]

/-- Workers of a new kind join workers of other kinds. -/
private theorem nodup_pair_append (holder : Discovered T done older) (hkind : kind ∉ done)
    (hmine : ∀ w ∈ mine, w.kind = kind) (hnodup : (mine.map Worker.hart).Nodup) :
    ((older ++ mine).map Worker.pair).Nodup := by
  rw [map_append]
  refine nodup_append.mpr ⟨holder.nodup, nodup_pair_of_hart hnodup, ?_⟩
  intro p hp q hq heq
  obtain ⟨v, hv, rfl⟩ := mem_map.mp hp
  obtain ⟨w, hw, rfl⟩ := mem_map.mp hq
  apply hkind
  rw [← hmine w hw, ← show v.kind = w.kind from congrArg Prod.fst heq]
  exact holder.kind_mem v hv

/-- A worker found by the scan has entries to run. -/
private theorem Scanned.used {seen : List (XpurtEntry τ)} (h : Scanned kind older seen s)
    (hseen : ∀ e ∈ seen, e ∈ T) : ∀ w ∈ s.mine, w.Used T := by
  intro w hw
  obtain ⟨hnonneg, e, he, hkind, hhart⟩ :=
    (h.hart_mem_iff w.hart).mp (mem_map_of_mem hw)
  exact ⟨e, hseen e he, by rw [hkind, (h.fresh w hw).1], by omega⟩

/-- One entry of the scan, when there are few pairs in use. -/
private theorem Scanned.step (holder : Discovered T done older) (hkind : kind ∉ done)
    (hpairs : (usedPairs T).length ≤ lim.maxWorkers) {seen : List (XpurtEntry τ)} {e : XpurtEntry τ}
    (hseen : ∀ x ∈ seen ++ [e], x ∈ T) {s : KindScan} (h : Scanned kind older seen s) :
    ∃ s', scanEntry lim kind kindIdx s e = .ok s' ∧ Scanned kind older (seen ++ [e]) s' := by
  by_cases hother : e.coreKind = kind
  swap
  · refine ⟨s, by rw [scanEntry, if_pos hother], h.older_eq, h.fresh, h.nodup, ?_, ?_⟩
    · intro x
      simp [h.hart_mem_iff, hother]
    · simp [h.unbound_iff, hother]
  by_cases hunbound : e.hart < 0
  · refine ⟨{ s with hasUnbound := true }, ?_, h.older_eq, h.fresh, h.nodup, ?_, ?_⟩
    · rw [scanEntry, if_neg (not_not_intro hother), if_pos hunbound]
    · intro x
      rw [h.hart_mem_iff]
      constructor
      · rintro ⟨hx, e', he', hrest⟩
        exact ⟨hx, e', mem_append_left _ he', hrest⟩
      · rintro ⟨hx, e', he', hkind', hhart'⟩
        rcases mem_append.mp he' with hold | hnew
        · exact ⟨hx, e', hold, hkind', hhart'⟩
        · rw [mem_singleton.mp hnew] at hhart'
          omega
    · exact iff_of_true rfl ⟨e, by simp, hother, hunbound⟩
  have hflag : s.hasUnbound = true ↔ ∃ x ∈ seen ++ [e], x.coreKind = kind ∧ x.hart < 0 := by
    rw [h.unbound_iff]
    simp only [mem_append, mem_singleton, or_and_right, exists_or, exists_eq_left,
      hunbound, and_false, or_false]
  by_cases hold : e.hart ∈ s.mine.map Worker.hart
  · refine ⟨s, ?_, h.older_eq, h.fresh, h.nodup, ?_, hflag⟩
    · rw [scanEntry, if_neg (not_not_intro hother), if_neg hunbound, if_pos hold]
    · intro x
      rw [h.hart_mem_iff]
      simp only [mem_append, mem_singleton, or_and_right, exists_or, exists_eq_left,
        hother, true_and]
      have hprev := (h.hart_mem_iff e.hart).mp hold
      constructor
      · exact fun hx => ⟨hx.1, Or.inl hx.2⟩
      · rintro ⟨hx, hseen' | rfl⟩
        · exact ⟨hx, hseen'⟩
        · exact hprev
  -- A new pair: with its worker there are still at most as many workers as pairs.
  let fresh : Worker := { kind := kind, hart := e.hart, kindIdx := kindIdx }
  have hnew : Scanned kind older (seen ++ [e]) { s with mine := s.mine ++ [fresh] } := by
    refine ⟨h.older_eq, ?_, ?_, ?_, hflag⟩
    · intro w hw
      rcases mem_append.mp hw with hw | hw
      · exact h.fresh w hw
      · rw [mem_singleton.mp hw]
        exact ⟨rfl, rfl⟩
    · rw [map_append, nodup_append]
      refine ⟨h.nodup, nodup_singleton _, ?_⟩
      intro x hx y hy heq
      rw [heq, mem_singleton.mp hy] at hx
      exact hold hx
    · intro x
      rw [map_append, mem_append, h.hart_mem_iff]
      simp only [mem_append, mem_singleton, or_and_right, exists_or, exists_eq_left,
        hother, true_and, map_cons, map_nil]
      constructor
      · rintro (hx | rfl)
        · exact ⟨hx.1, Or.inl hx.2⟩
        · exact ⟨not_lt.mp hunbound, Or.inr rfl⟩
      · rintro ⟨hx, hprev | rfl⟩
        · exact Or.inl ⟨hx, hprev⟩
        · exact Or.inr rfl
  have hroom : older.length + s.mine.length < lim.maxWorkers := by
    have hlen := length_le_usedPairs (T := T)
      (nodup_pair_append holder hkind (fun w hw => (hnew.fresh w hw).1) hnew.nodup)
      (by
        intro w hw
        rcases mem_append.mp hw with hw | hw
        · exact holder.used w hw
        · exact hnew.used hseen w hw)
    simp only [length_append, length_singleton] at hlen
    omega
  refine ⟨_, ?_, hnew⟩
  rw [scanEntry, if_neg (not_not_intro hother), if_neg hunbound, if_neg hold, h.older_eq,
    if_neg (by omega)]

/-- A bound entry has one claimant among workers of its kind on distinct harts. -/
private theorem claimants_bound (hkind : ∀ w ∈ ws, w.kind = kind)
    (hnodup : (ws.map Worker.hart).Nodup) (hother : e.coreKind = kind) (hbound : 0 ≤ e.hart)
    (hmem : e.hart ∈ ws.map Worker.hart) : claimants ws e = 1 := by
  rw [← count_eq_one_of_mem hnodup hmem, claimants, List.count, countP_map]
  refine countP_congr fun w hw => ?_
  simp only [Worker.Claims, hother, hkind w hw, if_pos hbound, true_and, decide_eq_true_eq,
    Function.comp_apply, beq_iff_eq]
  exact eq_comm

/-- An unbound entry has the flagged workers of its kind as claimants. -/
private theorem claimants_unbound (hkind : ∀ w ∈ ws, w.kind = kind) (hother : e.coreKind = kind)
    (hunbound : e.hart < 0) :
    claimants ws e = ws.countP fun w => w.claimsUnbound := by
  refine countP_congr fun w hw => ?_
  simp [Worker.Claims, hother, hkind w hw, hunbound]

/-- Workers of another kind claim nothing. -/
private theorem claimants_other (h : ∀ w ∈ ws, w.kind ≠ e.coreKind) : claimants ws e = 0 := by
  refine countP_eq_zero.mpr fun w hw => ?_
  intro hclaim
  exact h w hw (of_decide_eq_true hclaim).1.symm

section
variable (holder : Discovered T done older) (hkind : kind ∉ done)
include holder hkind

/-- The workers of a new kind join those of the earlier kinds. -/
private theorem Discovered.append (hmine : ∀ w ∈ mine, w.kind = kind)
    (hnodup : (mine.map Worker.hart).Nodup) (hused : ∀ w ∈ mine, w.Used T)
    (hclaim : ∀ e ∈ T, e.coreKind = kind → claimants mine e = 1) :
    Discovered T (done ++ [kind]) (older ++ mine) where
  kind_mem := by
    intro w hw
    rcases mem_append.mp hw with hw | hw
    · exact mem_append_left _ (holder.kind_mem w hw)
    · simp [hmine w hw]
  nodup := nodup_pair_append holder hkind hmine hnodup
  used := by
    intro w hw
    rcases mem_append.mp hw with hw | hw
    · exact holder.used w hw
    · exact hused w hw
  claimants_eq_one := by
    intro e he hdone
    have hsplit : claimants (older ++ mine) e = claimants older e + claimants mine e :=
      countP_append
    rw [hsplit]
    rcases mem_append.mp hdone with hdone | hnew
    · have hnone : claimants mine e = 0 := by
        refine claimants_other fun w hw heq => hkind ?_
        rwa [← hmine w hw, heq]
      rw [holder.claimants_eq_one e he hdone, hnone]
    · have heq : e.coreKind = kind := mem_singleton.mp hnew
      have hnone : claimants older e = 0 := by
        refine claimants_other fun w hw hsame => hkind ?_
        rw [← heq, ← hsame]
        exact holder.kind_mem w hw
      rw [hclaim e he heq, hnone]

/-- The end of the scan, when there are few pairs in use. -/
private theorem Scanned.finish (hpairs : (usedPairs T).length ≤ lim.maxWorkers)
    (h : Scanned kind older T s) (kindIdx : ℕ) :
    ∃ ws, finishKind lim kind kindIdx s = .ok ws ∧ Discovered T (done ++ [kind]) ws := by
  have hused := h.used fun _ he => he
  have hbound : ∀ e ∈ T, e.coreKind = kind → 0 ≤ e.hart → e.hart ∈ s.mine.map Worker.hart :=
    fun e he hother hnonneg => (h.hart_mem_iff e.hart).mpr ⟨hnonneg, e, he, hother, rfl⟩
  by_cases hflag : s.hasUnbound = false
  · refine ⟨s.older ++ s.mine, by rw [finishKind, if_pos hflag], ?_⟩
    rw [h.older_eq]
    refine holder.append hkind (fun w hw => (h.fresh w hw).1) h.nodup hused ?_
    intro e he hother
    have hnonneg : 0 ≤ e.hart := by
      by_contra hneg
      have := h.unbound_iff.mpr ⟨e, he, hother, not_le.mp hneg⟩
      simp [this] at hflag
    exact claimants_bound (fun w hw => (h.fresh w hw).1) h.nodup hother hnonneg
      (hbound e he hother hnonneg)
  by_cases hmine : s.mine ≠ []
  · refine ⟨s.older ++ markLowest s.mine, by rw [finishKind, if_neg hflag, if_pos hmine], ?_⟩
    rw [h.older_eq]
    have hpair : ∀ w ∈ markLowest s.mine, ∃ v ∈ s.mine, v.pair = w.pair := by
      intro w hw
      have := mem_map_of_mem (f := Worker.pair) hw
      rw [map_pair_markLowest] at this
      exact mem_map.mp this
    have hkinds : ∀ w ∈ markLowest s.mine, w.kind = kind := by
      intro w hw
      obtain ⟨v, hv, heq⟩ := hpair w hw
      rw [← show v.kind = w.kind from congrArg Prod.fst heq]
      exact (h.fresh v hv).1
    have hharts : (markLowest s.mine).map Worker.hart = s.mine.map Worker.hart := by
      have := congrArg (List.map Prod.snd) (map_pair_markLowest s.mine)
      rwa [map_map, map_map] at this
    refine holder.append hkind hkinds (hharts ▸ h.nodup) ?_ ?_
    · intro w hw
      obtain ⟨v, hv, heq⟩ := hpair w hw
      obtain ⟨e, he, hek, heh⟩ := hused v hv
      exact ⟨e, he, hek.trans (congrArg Prod.fst heq), heh.trans (congrArg Prod.snd heq)⟩
    · intro e he hother
      by_cases hnonneg : 0 ≤ e.hart
      · exact claimants_bound hkinds (hharts ▸ h.nodup) hother hnonneg
          (hharts ▸ hbound e he hother hnonneg)
      · rw [claimants_unbound hkinds hother (not_le.mp hnonneg)]
        exact countP_markLowest hmine h.nodup fun w hw => (h.fresh w hw).2
  -- Only unbound entries: one unpinned worker, which takes the room of their pair.
  rw [not_not] at hmine
  obtain ⟨e₀, he₀, hkind₀, hneg₀⟩ := h.unbound_iff.mp (by simpa using hflag)
  let unpinned : Worker := { kind := kind, hart := -1, kindIdx := kindIdx, claimsUnbound := true }
  have hnew : Discovered T (done ++ [kind]) (older ++ [unpinned]) := by
    refine holder.append hkind (by simp [unpinned]) (nodup_singleton _) ?_ ?_
    · intro w hw
      rw [mem_singleton.mp hw]
      exact ⟨e₀, he₀, hkind₀, by show max e₀.hart (-1) = -1; omega⟩
    · intro e he hother
      have hneg : e.hart < 0 := by
        by_contra hnonneg
        have := hbound e he hother (not_lt.mp hnonneg)
        rw [hmine] at this
        cases this
      rw [claimants_unbound (by simp [unpinned]) hother hneg]
      rfl
  have hroom : older.length < lim.maxWorkers := by
    have hlen := length_le_usedPairs hnew.nodup hnew.used
    rw [length_append, length_singleton] at hlen
    omega
  refine ⟨_, ?_, hnew⟩
  rw [finishKind, if_neg hflag, if_neg (not_not_intro hmine), h.older_eq, if_neg (by omega)]

/-- One more kind, when there are few pairs in use. -/
theorem Discovered.step (hpairs : (usedPairs T).length ≤ lim.maxWorkers) (kindIdx : ℕ) :
    ∃ ws, discoverKind lim T older (kind, kindIdx) = .ok ws ∧
      Discovered T (done ++ [kind]) ws := by
  have hstart : Scanned kind older ([] : List (XpurtEntry τ)) { older := older } :=
    ⟨rfl, by simp, nodup_nil, by simp, by simp⟩
  obtain ⟨s, hscan, hs⟩ := exists_foldlM_eq_ok
    (f := scanEntry lim kind kindIdx) (P := Scanned kind older) (l := T)
    (by
      intro seen e rest s hsplit hseen
      refine Scanned.step holder hkind hpairs ?_ hseen
      intro x hx
      rw [← hsplit, append_cons]
      exact mem_append_left rest hx)
    hstart
  obtain ⟨ws, hfinish, hws⟩ := hs.finish holder hkind hpairs kindIdx
  exact ⟨ws, bind_eq_ok_iff.mpr ⟨s, hscan, hfinish⟩, hws⟩

end

end Scan

/-- Discovery succeeds when the table uses few pairs, and then every entry of a compiled kind has
exactly one claimant. -/
theorem exists_discoverWorkers_eq_ok {lim : Limits} {kinds : List String} (hkinds : kinds.Nodup)
    (hpairs : (usedPairs T).length ≤ lim.maxWorkers) :
    ∃ ws, discoverWorkers lim kinds T = .ok ws ∧ Discovered T kinds ws := by
  obtain ⟨ws, hrun, hws⟩ := exists_foldlM_eq_ok (f := discoverKind lim T)
    (P := fun seen ws => Discovered T (seen.map Prod.fst) ws) (l := kinds.zipIdx)
    (by
      intro seen kindAt rest ws hsplit hseen
      have hnew : kindAt.1 ∉ seen.map Prod.fst := by
        have hnodup : ((kinds.zipIdx).map Prod.fst).Nodup := by
          rwa [zipIdx_map_fst]
        rw [← hsplit, map_append, nodup_append] at hnodup
        intro hmem
        exact hnodup.2.2 _ hmem kindAt.1 (by simp) rfl
      obtain ⟨ws', hstep, hws'⟩ := hseen.step hnew hpairs kindAt.2
      exact ⟨ws', hstep, by rwa [map_append]⟩)
    (b := []) ⟨by simp, nodup_nil, by simp, by simp⟩
  rw [zipIdx_map_fst] at hws
  exact ⟨ws, hrun, hws⟩

/-- The audit passes iff every entry has exactly one claimant. -/
theorem claimAudit_eq_ok_iff :
    (∃ r, claimAudit ws T = .ok r) ↔ ∀ e ∈ T, claimants ws e = 1 := by
  constructor
  · rintro ⟨r, hr⟩ e he
    rw [claimAudit, mapM_eq_ok_iff] at hr
    obtain ⟨i, hi, rfl⟩ := mem_iff_getElem.mp he
    have hget := (forall₂_iff_get.mp hr).2 i hi (by rw [← hr.length_eq]; exact hi)
    rw [auditEntry, ite_error_eq_ok_iff, not_not] at hget
    exact hget.1
  · intro h
    refine exists_mapM_eq_ok fun e he => ⟨(), ?_⟩
    rw [auditEntry, if_neg (not_not_intro (h e he))]

/-! ### Pools -/

/-- The harts of the entries that reserve several, in the order of the table. -/
def composites (T : List (XpurtEntry τ)) : List (List ℤ) :=
  (T.map XpurtEntry.harts).filter fun harts => 1 < harts.length

/-- The pools after some entries: one for every combination. -/
structure Pooled (seen : List (XpurtEntry τ)) (pools : List (List ℤ)) : Prop where
  nodup : pools.Nodup
  mem_iff : ∀ p, p ∈ pools ↔ p ∈ composites seen

/-- There are as many pools as distinct combinations. -/
theorem Pooled.length_eq {seen : List (XpurtEntry τ)} {pools : List (List ℤ)}
    (h : Pooled seen pools) : pools.length = (composites seen).dedup.length := by
  refine List.Perm.length_eq ?_
  rw [perm_ext_iff_of_nodup h.nodup (nodup_dedup _)]
  intro p
  rw [h.mem_iff, mem_dedup]

/-- What the lock array demands of the harts of an entry. -/
def HartsInRange (lim : Limits) (e : XpurtEntry τ) : Prop :=
  1 ≤ e.harts.length ∧ e.harts.length ≤ lim.maxPoolWidth ∧
    ∀ h ∈ e.harts, 0 ≤ h ∧ h < lim.maxHarts

section Pools

variable {lim : Limits} {T seen : List (XpurtEntry τ)} {e : XpurtEntry τ}
  {pools pools' : List (List ℤ)}

/-- When one entry passes, and with which pools. -/
theorem initEntry_eq_ok_iff : initEntry lim pools e = .ok pools' ↔
    HartsInRange lim e ∧
      if e.harts.length = 1 ∨ e.harts ∈ pools then pools' = pools
      else pools.length < lim.maxPools ∧ PoolCreatable e.harts ∧ pools' = pools ++ [e.harts] := by
  have hrange : HartsInRange lim e ↔ ¬(e.harts.length < 1 ∨ lim.maxPoolWidth < e.harts.length) ∧
        ¬∃ h ∈ e.harts, h < 0 ∨ lim.maxHarts ≤ h := by
    simp only [HartsInRange, not_or, not_lt, not_exists, not_and, not_le, and_assoc]
  rw [initEntry, ite_error_eq_ok_iff, ite_error_eq_ok_iff, ← and_assoc, ← hrange]
  refine and_congr_right fun _ => ?_
  split_ifs with hknown hfull hcreate
  · rw [Except.ok.injEq, eq_comm]
  · exact iff_of_false (by simp) fun h => absurd h.1 (by omega)
  · rw [Except.ok.injEq, eq_comm]
    exact ⟨fun h => ⟨by omega, hcreate, h⟩, fun h => h.2.2⟩
  · exact iff_of_false (by simp) fun h => hcreate h.2.1

/-- The combinations after one more entry. -/
private theorem mem_composites_append {p : List ℤ} :
    p ∈ composites (seen ++ [e]) ↔ p ∈ composites seen ∨ (1 < e.harts.length ∧ p = e.harts) := by
  simp only [composites, map_append, filter_append, mem_append, map_cons,
    map_nil, mem_filter, mem_singleton, decide_eq_true_eq]
  refine or_congr_right ⟨fun h => ⟨h.1 ▸ h.2, h.1⟩, fun h => ⟨h.2, h.2 ▸ h.1⟩⟩

/-- One entry keeps the pools those of the combinations. -/
theorem Pooled.step (h : Pooled seen pools) (hinit : initEntry lim pools e = .ok pools') :
    Pooled (seen ++ [e]) pools' := by
  obtain ⟨hrange, hpools⟩ := initEntry_eq_ok_iff.mp hinit
  split_ifs at hpools with hknown
  · subst hpools
    refine ⟨h.nodup, fun p => ?_⟩
    rw [mem_composites_append, h.mem_iff]
    constructor
    · exact Or.inl
    · rintro (hp | ⟨hwide, rfl⟩)
      · exact hp
      · rcases hknown with hone | hmem
        · omega
        · exact (h.mem_iff _).mp hmem
  · obtain ⟨-, -, rfl⟩ := hpools
    rw [not_or] at hknown
    refine ⟨?_, fun p => ?_⟩
    · rw [nodup_append]
      refine ⟨h.nodup, nodup_singleton _, ?_⟩
      intro p hp q hq heq
      rw [heq, mem_singleton.mp hq] at hp
      exact hknown.2 hp
    · have hwide : 1 < e.harts.length := by
        have := hrange.1
        omega
      rw [mem_composites_append, mem_append, mem_singleton, h.mem_iff]
      exact or_congr_right ⟨fun hp => ⟨hwide, hp⟩, fun hp => hp.2⟩

/-- When the last phase succeeds: the harts of every entry index the lock array, and there are
few combinations. -/
theorem initEntryRuntime_eq_ok_iff (hnodup : ∀ e ∈ T, e.harts.Nodup) :
    (∃ pools, initEntryRuntime lim T = .ok pools) ↔
      (∀ e ∈ T, HartsInRange lim e) ∧ (composites T).dedup.length ≤ lim.maxPools := by
  constructor
  · rintro ⟨pools, hrun⟩
    have hinv := foldlM_invariant (f := initEntry lim)
      (P := fun seen pools => (∀ x ∈ seen, HartsInRange lim x) ∧ Pooled seen pools ∧
        pools.length ≤ lim.maxPools)
      (by
        rintro seen x pools pools' ⟨hrange, hpooled, hlen⟩ hstep
        obtain ⟨hx, hpools⟩ := initEntry_eq_ok_iff.mp hstep
        refine ⟨?_, hpooled.step hstep, ?_⟩
        · intro y hy
          rcases mem_append.mp hy with hy | hy
          · exact hrange y hy
          · rwa [mem_singleton.mp hy]
        · split_ifs at hpools with hknown
          · rwa [hpools]
          · rw [hpools.2.2, length_append, length_singleton]
            exact hpools.1)
      (show _ ∧ Pooled [] [] ∧ _ from
        ⟨by simp, ⟨nodup_nil, by simp [composites]⟩, Nat.zero_le _⟩) hrun
    exact ⟨hinv.1, hinv.2.1.length_eq ▸ hinv.2.2⟩
  · rintro ⟨hrange, hfew⟩
    obtain ⟨pools, hrun, -⟩ := exists_foldlM_eq_ok (f := initEntry lim) (P := Pooled) (l := T) (by
        intro seen x rest pools hsplit hpooled
        have hx : x ∈ T := by simp [← hsplit]
        by_cases hknown : x.harts.length = 1 ∨ x.harts ∈ pools
        · have hstep : initEntry lim pools x = .ok pools :=
            initEntry_eq_ok_iff.mpr ⟨hrange x hx, by rw [if_pos hknown]⟩
          exact ⟨pools, hstep, hpooled.step hstep⟩
        -- The pools and the new one are combinations of the whole table.
        have hroom : pools.length < lim.maxPools := by
          have hsub : pools ++ [x.harts] ⊆ (composites T).dedup := by
            intro p hp
            rw [mem_dedup, ← hsplit, composites, map_append, filter_append]
            rcases mem_append.mp hp with hp | hp
            · exact mem_append_left _ ((hpooled.mem_iff p).mp hp)
            · have hwide : 1 < x.harts.length := by
                have := (hrange x hx).1
                omega
              rw [mem_singleton.mp hp]
              simp [hwide]
          have hdistinct : (pools ++ [x.harts]).Nodup := by
            rw [nodup_append]
            refine ⟨hpooled.nodup, nodup_singleton _, ?_⟩
            intro p hp q hq heq
            rw [heq, mem_singleton.mp hq] at hp
            exact hknown (Or.inr hp)
          have hlen := (hdistinct.subperm hsub).length_le
          rw [length_append, length_singleton] at hlen
          omega
        have hcreate : PoolCreatable x.harts :=
          ⟨(hrange x hx).1, (hrange x hx).2.1.trans lim.width_bounds.2,
            fun h hh => ((hrange x hx).2.2 h hh).1, hnodup x hx⟩
        have hstep : initEntry lim pools x = .ok (pools ++ [x.harts]) :=
          initEntry_eq_ok_iff.mpr ⟨hrange x hx, by rw [if_neg hknown]; exact ⟨hroom, hcreate, rfl⟩⟩
        exact ⟨_, hstep, hpooled.step hstep⟩)
      (b := []) ⟨nodup_nil, by simp [composites]⟩
    exact ⟨pools, hrun⟩

end Pools

/-! ### Tables of the ingest -/

section Load

variable {lim : Limits} {T : List (XpurtEntry τ)}

/-- In a well-formed table whose harts fit the arrays, the harts of an entry are in range iff the
entry is bound. -/
theorem hartsInRange_iff (hT : WellFormed T)
    (hwidth : ∀ p ∈ composites T, p.length ≤ lim.maxPoolWidth)
    (hharts : ∀ e ∈ T, ∀ h ∈ e.harts, h < lim.maxHarts) {e : XpurtEntry τ} (he : e ∈ T) :
    HartsInRange lim e ↔ 0 ≤ e.hart := by
  have hhead := hT.harts_head e he
  have hmem : e.hart ∈ e.harts := mem_of_mem_head? hhead
  constructor
  · exact fun h => (h.2.2 e.hart hmem).1
  · intro hbound
    by_cases hwide : 1 < e.harts.length
    · have hcomp : e.harts ∈ composites T :=
        mem_filter.mpr ⟨mem_map_of_mem he, by simpa using hwide⟩
      exact ⟨by omega, hwidth _ hcomp,
        fun h hh => ⟨hT.harts_bound e he hwide h hh, hharts e he h hh⟩⟩
    · have hlen : e.harts.length = 1 := by
        have := length_pos_of_mem hmem
        omega
      refine ⟨by omega, by rw [hlen]; exact lim.width_bounds.1, fun h hh => ⟨?_, hharts e he h hh⟩⟩
      -- A single hart is the owning one.
      obtain ⟨h₀, heq⟩ := length_eq_one_iff.mp hlen
      rw [heq, mem_singleton] at hh hmem
      rwa [hh, ← hmem]

variable [LinearOrder τ] [Zero τ] [Add τ] {env : Env} {doc : Doc τ} {irs : PyDict String Ir}
  {reg : CoreRegistry} {slots : SlotKinds} {kinds : List String}

/-- A table within the limits gets through the start-up, with one worker for every entry, iff
every entry is bound to a hart and there are few combinations of harts, the same harts in another
order being another combination. -/
theorem startUp_passes_iff (hload : load env doc irs reg slots = .ok T) (hkinds : kinds.Nodup)
    (hcompiled : ∀ e ∈ T, e.coreKind ∈ kinds) (hpairs : (usedPairs T).length ≤ lim.maxWorkers)
    (hwidth : ∀ p ∈ composites T, p.length ≤ lim.maxPoolWidth)
    (hharts : ∀ e ∈ T, ∀ h ∈ e.harts, h < lim.maxHarts) :
    (∃ ws pools, startUp lim kinds T = .ok (ws, pools) ∧ ∀ e ∈ T, claimants ws e = 1) ↔
      (∀ e ∈ T, 0 ≤ e.hart) ∧ (composites T).dedup.length ≤ lim.maxPools := by
  have hT := wellFormed_of_load hload
  obtain ⟨ws, hws, hdisc⟩ := exists_discoverWorkers_eq_ok (T := T) hkinds hpairs
  have hone : ∀ e ∈ T, claimants ws e = 1 :=
    fun e he => hdisc.claimants_eq_one e he (hcompiled e he)
  obtain ⟨r, haudit⟩ := claimAudit_eq_ok_iff.mpr hone
  have hruntime := @initEntryRuntime_eq_ok_iff _ lim T hT.harts_nodup
  have hrange : (∀ e ∈ T, HartsInRange lim e) ↔ ∀ e ∈ T, 0 ≤ e.hart :=
    forall₂_congr fun e he => hartsInRange_iff hT hwidth hharts he
  rw [← hrange, ← hruntime]
  simp only [startUp, bind_eq_ok_iff]
  constructor
  · rintro ⟨ws', pools, ⟨_, -, _, -, pools', hpools, -⟩, -⟩
    exact ⟨pools', hpools⟩
  · rintro ⟨pools, hpools⟩
    exact ⟨ws, pools, ⟨ws, hws, r, haudit, pools, hpools, rfl⟩, hone⟩

end Load

/-- A schedule of the small workload on its registry gets through the start-up. -/
theorem startUp_passes_iff_head :
    (∃ ws pools, startUp {} ["rvv", "scalar"] headTable = .ok (ws, pools) ∧
      ∀ e ∈ headTable, claimants ws e = 1) ↔
      (∀ e ∈ headTable, 0 ≤ e.hart) ∧ (composites headTable).dedup.length ≤ 32 :=
  startUp_passes_iff
    (show load {} ⟨some headRaw, none, []⟩ pairIrs pairRegistry {} = .ok headTable by
      decide)
    (by decide) (by decide) (by decide) (by decide) (by decide)

/-- The registry of the small workload, whose scalar core covers no hart. -/
def hartlessRegistry : CoreRegistry := ⟨"pair", [⟨"rvv0", "rvv", [1]⟩, ⟨"rocket0", "scalar", []⟩]⟩

/-- The table of the small workload on that registry: the activation is bound to no hart. -/
def hartlessTable : List (XpurtEntry ℕ) :=
  headTable.map fun e => if e.coreKind = "scalar" then { e with hart := -1, harts := [-1] } else e

/-- An entry bound to a core without harts ends the start-up, although it has exactly one
claimant and the table is within every limit. -/
theorem hartless_refused :
    load {} ⟨some headRaw, none, []⟩ pairIrs hartlessRegistry {} = .ok hartlessTable ∧
      (∀ e ∈ hartlessTable, e.coreKind ∈ ["rvv", "scalar"]) ∧
      (usedPairs hartlessTable).length ≤ 32 ∧
      ((composites hartlessTable).map List.toFinset).dedup.length ≤ 32 ∧
      (∀ p ∈ composites hartlessTable, p.length ≤ 16) ∧
      (∀ e ∈ hartlessTable, ∀ h ∈ e.harts, h < 256) ∧
      discoverWorkers {} ["rvv", "scalar"] hartlessTable =
        .ok [⟨"rvv", 1, 0, false⟩, ⟨"scalar", -1, 1, true⟩] ∧
      startUp {} ["rvv", "scalar"] hartlessTable = .error (.entryRuntime (-3)) := by
  decide

end ModelBlaster
