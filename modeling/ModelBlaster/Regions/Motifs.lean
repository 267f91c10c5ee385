import ModelBlaster.Library.Greedy
import ModelBlaster.Regions.Windows

/-!
# Periodic segments

Segments of a run in which the kinds of the ops repeat. They are found period by period, and those
that cover most are taken first. Windows are cut from whole periods.

## Main definitions

* `detectMotifs`: the periodic segments of a sequence;
* `snapMotifs`: segments that begin and end where windows may;
* `motifWindows`: the windows of a segment;
* `segmentsFrom`: the periodic segments of a run, and the gaps between them;
* `partitionRun`: the windows of a run;
* `Periodic`, `MaximalPeriodic`: segments that repeat, and those that cannot be made longer;
* `Run`: the positions of such a segment that come again.

## Main results

* `ascending_detectMotifs`: the segments do not overlap and lie in the sequence;
* `ascending_snapMotifs`: nor do those that are left;
* `ascending_motifWindows`: the windows of a segment lie in it and have a bounded size;
* `exists_allWindows`: the windows of the parts are in order;
* `partitionRun_legal`: the windows are legal, and the loops end;
* `mem_scanPeriod_iff`: what the scan of one period finds;
* `detectMotifs_exact`: what is taken, and why a segment is not.
-/

namespace ModelBlaster.RegionWindows

open Intervals List

/-- `Motif` -/
structure Motif where
  /-- The position in the run. -/
  start : ℕ
  period : ℕ
  reps : ℕ
deriving DecidableEq, Repr

/-- `Motif.end` -/
def Motif.stop (m : Motif) : ℕ := m.start + m.period * m.reps

/-- The positions of a segment. -/
def Motif.interval (m : Motif) : ℕ × ℕ := (m.start, m.stop)

/-- `MIN_REPS` -/
def minReps : ℕ := 3

/-- `MIN_MOTIF_OPS` -/
def minMotifOps : ℕ := 32

/-! ### Detection -/

section Detection

variable {Token : Type} [DecidableEq Token]

/-- The segments of one period, and where the current one begins. -/
structure ScanState where
  a : Option ℕ
  segs : List Motif
deriving DecidableEq, Repr

/-- The body of the loop of `detect_motifs` over the positions. -/
def scanStep (tokens : List Token) (least p : ℕ) (st : ScanState) (i : ℕ) : ScanState :=
  let same := i < tokens.length - p ∧ tokens[i]? = tokens[i + p]?
  match st.a with
  | none => if same then { st with a := some i } else st
  | some a =>
    if same then st
    else
      let reps := (i + p - a) / p
      { a := none, segs := if least ≤ reps then st.segs ++ [⟨a, p, reps⟩] else st.segs }

/-- The segments with period `p`. -/
def scanPeriod (tokens : List Token) (least p : ℕ) : List Motif :=
  ((List.range (tokens.length - p + 1)).foldl (scanStep tokens least p) ⟨none, []⟩).segs

/-- The order in which segments are taken: the longest first, of these the smallest period. -/
def before (m m' : Motif) : Bool :=
  m'.period * m'.reps < m.period * m.reps ∨
    m'.period * m'.reps = m.period * m.reps ∧
      (m.period < m'.period ∨ m.period = m'.period ∧ m.start ≤ m'.start)

/-- Whether two segments have a position in common. -/
def overlaps (m m' : Motif) : Bool := m.start < m'.stop ∧ m'.start < m.stop

/-- `detect_motifs` -/
def detectMotifs (tokens : List Token) (maxPeriod least : ℕ) : List Motif :=
  let segs := (List.range' 1 (min maxPeriod (tokens.length / least))).flatMap
    (scanPeriod tokens least)
  let out := (segs.mergeSort before).foldl (fun out m =>
    if out.any (overlaps m) then out else out ++ [m]) []
  out.mergeSort fun m m' => m.start ≤ m'.start

end Detection

/-! ### Snapping -/

/-- A segment that begins and ends at legal cuts. -/
def snapOne (reach : List ℤ) (minGap prevEnd : ℕ) (m : Motif) : Motif :=
  let a := if prevEnd + minGap ≤ m.start ∧ !legalEnd reach prevEnd m.start then
      ((List.range' m.start (m.stop + 1 - m.start)).find? fun c =>
        legalEnd reach prevEnd c).getD m.stop
    else m.start
  let b := if !legalEnd reach a m.stop then
      ((List.range' (a + 1) (m.stop - a)).reverse.find? fun c => legalEnd reach a c).getD a
    else m.stop
  ⟨a, m.period, (b - a) / m.period⟩

/-- The loop of `snap_motifs`. -/
def snapFrom (reach : List ℤ) (minGap prevEnd : ℕ) : List Motif → List Motif
  | [] => []
  | m :: ms =>
    let m' := snapOne reach minGap prevEnd m
    if minReps ≤ m'.reps ∧ minMotifOps ≤ m'.reps * m'.period then
      m' :: snapFrom reach minGap m'.stop ms
    else snapFrom reach minGap prevEnd ms

/-- `snap_motifs` -/
def snapMotifs (motifs : List Motif) (reach : List ℤ) : List Motif :=
  snapFrom reach 4 0 (motifs.mergeSort fun m m' => m.start ≤ m'.start)

/-! ### Windows -/

/-- The windows `k`, `k + 1`, … of a segment, from `s` on. -/
def motifWindowsFrom (period base extra s k : ℕ) : ℕ → List (ℕ × ℕ)
  | 0 => []
  | left + 1 =>
    let r := base + if k < extra then 1 else 0
    (s, s + r * period) :: motifWindowsFrom period base extra (s + r * period) (k + 1) left

/-- `motif_windows` -/
def motifWindows (m : Motif) (size : ℕ) : List (ℕ × ℕ) :=
  if size < m.period then []
  else
    let per := max 1 (size / m.period)
    let w := (m.reps + per - 1) / per
    motifWindowsFrom m.period (m.reps / w) (m.reps % w) m.start 0 w

/-! ### What is detected -/

section Detected

variable {Token : Type} [DecidableEq Token] {tokens : List Token} {least p : ℕ}

/-- A segment with elements, in a sequence of `n`. -/
def Motif.Within (n : ℕ) (m : Motif) : Prop := m.start < m.stop ∧ m.stop ≤ n

/-- After `k` positions, the current segment began earlier, and the others lie in the sequence. -/
structure ScanState.Inv (n k : ℕ) (st : ScanState) : Prop where
  lt : ∀ a, st.a = some a → a < k
  within : ∀ m ∈ st.segs, m.Within n

theorem ScanState.Inv.step {k : ℕ} {st : ScanState} (h : st.Inv tokens.length k) (hp : 0 < p)
    (hlen : k + p ≤ tokens.length) :
    (scanStep tokens least p st k).Inv tokens.length (k + 1) := by
  obtain ⟨a, segs⟩ := st
  unfold scanStep
  dsimp only
  cases a with
  | none =>
    split_ifs
    · refine ⟨fun a ha => ?_, h.within⟩
      obtain rfl := Option.some.inj ha
      omega
    · exact ⟨fun a ha => (nomatch ha), h.within⟩
  | some a =>
    have hlt : a < k := h.lt a rfl
    dsimp only
    split_ifs with hsame hleast
    · exact ⟨fun b hb => (h.lt b hb).trans (Nat.lt_succ_self k), h.within⟩
    · refine ⟨fun b hb => (nomatch hb), forall_mem_append.mpr ⟨h.within, ?_⟩⟩
      have hreps : 1 ≤ (k + p - a) / p := (Nat.one_le_div_iff hp).mpr (by omega)
      have hle : p * ((k + p - a) / p) ≤ k + p - a := Nat.mul_div_le _ _
      have hpos : 0 < p * ((k + p - a) / p) := Nat.mul_pos hp hreps
      refine forall_mem_singleton.mpr ⟨?_, ?_⟩
      · show a < a + p * ((k + p - a) / p)
        omega
      · show a + p * ((k + p - a) / p) ≤ tokens.length
        omega
    · exact ⟨fun b hb => (nomatch hb), h.within⟩

theorem within_scanPeriod (hp : 0 < p) (hlen : p ≤ tokens.length) :
    ∀ m ∈ scanPeriod tokens least p, m.Within tokens.length := by
  have hinv : ∀ k, k + p ≤ tokens.length + 1 →
      ((List.range k).foldl (scanStep tokens least p) ⟨none, []⟩).Inv tokens.length k := by
    intro k
    induction k with
    | zero => exact fun _ => ⟨fun a ha => (nomatch ha), forall_mem_nil _⟩
    | succ k ih =>
      intro hk
      rw [range_succ, foldl_append]
      exact (ih (by omega)).step hp (by omega)
  exact (hinv (tokens.length - p + 1) (by omega)).within

/-- Segments that do not overlap lie one after the other. -/
theorem le_or_le_of_not_overlaps {m m' : Motif} (h : overlaps m' m = false) :
    m.stop ≤ m'.start ∨ m'.stop ≤ m.start := by
  rw [overlaps, decide_eq_false_iff_not] at h
  omega

/-- The segments do not overlap and lie in the sequence, in ascending order. -/
theorem ascending_detectMotifs (tokens : List Token) (maxPeriod least : ℕ) :
    Ascending 0 tokens.length ((detectMotifs tokens maxPeriod least).map Motif.interval) := by
  refine ascending_mergeSort Motif.interval (Nat.zero_le _)
    ((Greedy.pairwise_choose overlaps _).imp le_or_le_of_not_overlaps) fun m hm => ?_
  have hmem := Greedy.choose_subset overlaps _ hm
  obtain ⟨p, hp, hscan⟩ := mem_flatMap.mp (mem_mergeSort.mp hmem)
  rw [mem_range'_1] at hp
  have hdiv : tokens.length / least ≤ tokens.length := Nat.div_le_self _ _
  obtain ⟨hlt, hle⟩ := within_scanPeriod (by omega) (by omega) m hscan
  exact ⟨Nat.zero_le _, hlt, hle⟩

end Detected

/-! ### What is left of a segment -/

variable {reach : List ℤ} {minGap prevEnd hi : ℕ}

/-- A segment is made shorter at its ends. -/
theorem snapOne_bounds (reach : List ℤ) (minGap prevEnd : ℕ) {m : Motif} (hm : m.start ≤ m.stop) :
    m.start ≤ (snapOne reach minGap prevEnd m).start ∧
      (snapOne reach minGap prevEnd m).stop ≤ m.stop := by
  unfold snapOne
  dsimp only
  generalize ha : (if prevEnd + minGap ≤ m.start ∧ (!legalEnd reach prevEnd m.start) = true then
    ((List.range' m.start (m.stop + 1 - m.start)).find? fun c =>
      legalEnd reach prevEnd c).getD m.stop else m.start) = a
  have hstart : m.start ≤ a ∧ a ≤ m.stop := by
    rw [← ha]
    split_ifs
    · cases hfind : (List.range' m.start (m.stop + 1 - m.start)).find? fun c =>
          legalEnd reach prevEnd c with
      | none => exact ⟨hm, le_rfl⟩
      | some c =>
        have hmem := mem_of_find?_eq_some hfind
        rw [mem_range'_1] at hmem
        exact ⟨hmem.1, by dsimp only [Option.getD_some]; omega⟩
    · exact ⟨le_rfl, hm⟩
  generalize hb : (if (!legalEnd reach a m.stop) = true then
    ((List.range' (a + 1) (m.stop - a)).reverse.find? fun c => legalEnd reach a c).getD a
      else m.stop) = b
  have hend : a ≤ b ∧ b ≤ m.stop := by
    rw [← hb]
    split_ifs
    · cases hfind : (List.range' (a + 1) (m.stop - a)).reverse.find? fun c =>
          legalEnd reach a c with
      | none => exact ⟨le_rfl, hstart.2⟩
      | some c =>
        have hmem := mem_of_find?_eq_some hfind
        rw [mem_reverse, mem_range'_1] at hmem
        dsimp only [Option.getD_some]
        omega
    · exact ⟨hstart.2, le_rfl⟩
  have hwhole : m.period * ((b - a) / m.period) ≤ b - a := Nat.mul_div_le _ _
  refine ⟨hstart.1, ?_⟩
  show a + m.period * ((b - a) / m.period) ≤ m.stop
  omega

theorem ascending_snapFrom {ms : List Motif} (h : Ascending prevEnd hi (ms.map Motif.interval)) :
    Ascending prevEnd hi ((snapFrom reach minGap prevEnd ms).map Motif.interval) := by
  induction ms generalizing prevEnd with
  | nil => exact h
  | cons m ms ih =>
    obtain ⟨hlo, hlt, hrest⟩ := h
    obtain ⟨hstart, hstop⟩ := snapOne_bounds reach minGap prevEnd (le_of_lt hlt)
    rw [snapFrom]
    split_ifs with hkept
    · have hpos : 0 < (snapOne reach minGap prevEnd m).period *
          (snapOne reach minGap prevEnd m).reps := by
        rw [Nat.mul_comm]
        exact lt_of_lt_of_le (by decide) hkept.2
      refine ⟨le_trans hlo hstart, Nat.lt_add_of_pos_right hpos, ih ?_⟩
      exact hrest.mono hstop le_rfl
    · exact ih (hrest.mono (le_trans hlo hlt.le) le_rfl)

/-- The segments that are left do not overlap. -/
theorem ascending_snapMotifs {motifs : List Motif} (h : Ascending 0 hi (motifs.map Motif.interval))
    :
    Ascending 0 hi ((snapMotifs motifs reach).map Motif.interval) := by
  have hsorted : (motifs.mergeSort fun m m' => m.start ≤ m'.start) = motifs :=
    mergeSort_eq_self Motif.interval h
  rw [snapMotifs, hsorted]
  exact ascending_snapFrom h

/-! ### Windows of a segment -/

/-- The windows from the `k`-th one on, as far as `left` of them reach. -/
theorem bounded_motifWindowsFrom {size period base extra : ℕ} (hperiod : 0 < period)
    (hbase : 0 < base) (hsize : ∀ k, (base + if k < extra then 1 else 0) * period ≤ size)
    (s k left : ℕ) :
    Bounded size s (s + (left * base + min left (extra - k)) * period)
      (motifWindowsFrom period base extra s k left) := by
  induction left generalizing s k with
  | zero => exact bounded_nil (Nat.le_add_right _ _)
  | succ left ih =>
    rw [motifWindowsFrom]
    have hfits := hsize k
    have hsplit : (left + 1) * base + min (left + 1) (extra - k) =
        (base + if k < extra then 1 else 0) + (left * base + min left (extra - (k + 1))) := by
      rw [Nat.succ_mul]
      split_ifs <;> omega
    have hpos : 0 < (base + if k < extra then 1 else 0) * period := Nat.mul_pos (by omega) hperiod
    rw [hsplit, Nat.add_mul, ← Nat.add_assoc]
    generalize (base + if k < extra then 1 else 0) * period = r at hfits hpos ⊢
    exact bounded_cons.mpr ⟨le_rfl, by dsimp only; omega, by dsimp only; omega, ih (s + r) (k + 1)⟩

/-- The windows of a segment lie in it, in ascending order, and are not too large. -/
theorem bounded_motifWindows {m : Motif} (h : m.start < m.stop) (size : ℕ) :
    Bounded size m.start m.stop (motifWindows m size) := by
  have hpos : 0 < m.period * m.reps := by
    unfold Motif.stop at h
    omega
  have hperiod : 0 < m.period := Nat.pos_of_mul_pos_right hpos
  have hreps : 0 < m.reps := Nat.pos_of_mul_pos_left hpos
  unfold motifWindows
  split_ifs with hlarge
  · exact bounded_nil h.le
  dsimp only
  have hper : max 1 (size / m.period) * m.period ≤ size := by
    have hone : 1 ≤ size / m.period := (Nat.one_le_div_iff hperiod).mpr (not_lt.mp hlarge)
    rw [max_eq_right hone]
    exact Nat.div_mul_le_self _ _
  have hone : 1 ≤ max 1 (size / m.period) := le_max_left _ _
  generalize max 1 (size / m.period) = per at hper hone
  -- Enough windows for all repetitions, and each of them gets one at least.
  have hceil : m.reps ≤ (m.reps + per - 1) / per * per := by
    have hdiv := Nat.div_add_mod (m.reps + per - 1) per
    have hmod := Nat.mod_lt (m.reps + per - 1) hone
    rw [Nat.mul_comm] at hdiv
    omega
  have hcount : (m.reps + per - 1) / per ≤ m.reps := by
    obtain ⟨r, hr⟩ : ∃ r, m.reps = r + 1 := ⟨m.reps - 1, by omega⟩
    have hle : r ≤ r * per := Nat.le_mul_of_pos_right r hone
    refine Nat.div_le_of_le_mul ?_
    rw [hr, Nat.mul_comm, Nat.succ_mul]
    omega
  have hw : 0 < (m.reps + per - 1) / per := Nat.div_pos (by omega) hone
  generalize (m.reps + per - 1) / per = w at hceil hcount hw
  have hdiv := Nat.div_add_mod m.reps w
  have hmod := Nat.mod_lt m.reps hw
  have hbase : 0 < m.reps / w := Nat.div_pos hcount hw
  have hfits : ∀ k, (m.reps / w + if k < m.reps % w then 1 else 0) * m.period ≤ size := by
    intro k
    have hle : (m.reps / w + if k < m.reps % w then 1 else 0) ≤ per := by
      split_ifs with hextra
      · by_contra hmore
        have hmul : w * per ≤ w * (m.reps / w) := Nat.mul_le_mul_left w (by omega)
        omega
      · exact Nat.div_le_of_le_mul hceil
    exact (Nat.mul_le_mul_right _ hle).trans hper
  have hall := bounded_motifWindowsFrom hperiod hbase hfits m.start 0 w
  have hsum : w * (m.reps / w) + min w (m.reps % w - 0) = m.reps := by omega
  rwa [hsum, Nat.mul_comm] at hall

end ModelBlaster.RegionWindows

/-! ## The windows of a run -/

namespace ModelBlaster.RegionWindows

open GraphPrune Intervals

/-- A part of a run. -/
inductive Segment where
  | motif (m : Motif)
  | gap (a b : ℕ)
deriving DecidableEq, Repr

/-- The parts of a run of `n` ops, from `pos` on. -/
def segmentsFrom (n pos : ℕ) : List Motif → List Segment
  | [] => if pos < n then [.gap pos n] else []
  | m :: ms =>
    (if pos < m.start then [.gap pos m.start] else []) ++ .motif m :: segmentsFrom n m.stop ms

/-- The parts of a run of `n` ops. -/
def segments (n : ℕ) (motifs : List Motif) : List Segment :=
  let segs := segmentsFrom n 0 (motifs.mergeSort fun m m' => m.start ≤ m'.start)
  if segs = [] then [.gap 0 n] else segs

/-- The windows of a part. -/
def segmentWindows (fuel : ℕ) (cost reach : List ℤ) (size : ℕ) (mode : Mode) :
    Segment → Option (List (ℕ × ℕ))
  | .motif m =>
    if mode = .chunk then some (motifWindows m size)
    else chunkSegment fuel cost reach m.start m.stop size .blocks
  | .gap a b => chunkSegment fuel cost reach a b size mode

/-- The windows of all parts. -/
def allWindows (fuel : ℕ) (cost reach : List ℤ) (size : ℕ) (mode : Mode) :
    List Segment → Option (List (ℕ × ℕ))
  | [] => some []
  | seg :: segs =>
    (segmentWindows fuel cost reach size mode seg).bind fun ws =>
      (allWindows fuel cost reach size mode segs).map fun rest => ws ++ rest

/-- The windows before the later passes. -/
def firstWindows (fuel : ℕ) (cost reach : List ℤ) (size : ℕ) (mode : Mode) (n : ℕ)
    (motifs : List Motif) : Option (List (ℕ × ℕ)) :=
  if mode = .motif then some (motifs.flatMap fun m => motifWindows m size)
  else allWindows fuel cost reach size mode (segments n motifs)

/-- The op indices of a window of positions. -/
def opsOf (idx : List ℕ) (w : ℕ × ℕ) : List ℕ :=
  (List.range' w.1 (w.2 - w.1)).map fun p => idx.getD p 0

/-- `partition_run`. A `while` loop that runs more than `fuel` times has no result. -/
def partitionRun (fuel : ℕ) (g : PruneGraph) (idx : List ℕ) (size : ℕ) (mode : Mode) (minOps : ℤ)
    (motifs : Option (List Motif)) (cost reach : Option (List ℤ)) : Option (List (List ℕ)) :=
  let cost := cost.getD (cutCosts g idx)
  let reach := reach.getD (aliasReach g idx)
  let motifs := snapMotifs ((motifs.getD []).filter fun m => m.period ≤ size) reach
  (firstWindows fuel cost reach size mode idx.length motifs).bind fun wins =>
    let wins := fixBoundaries (sorted wins) reach size
    let wins := if mode ≠ .motif then coalesce wins reach size else wins
    (mergeSmall fuel wins g idx size minOps).map fun wins =>
      (fixBoundaries wins reach size).map (opsOf idx)

/-! ### The windows of the parts -/

variable {reach : List ℤ} {fuel size lo hi n : ℕ} {pos : ℕ} {ms : List Motif}

/-- The gaps and the segments cover the rest of the run, in order; from each of them come windows in
it. -/
theorem exists_allWindows (cost reach : List ℤ) (mode : Mode) (hsize : 0 < size) (hfuel : n ≤ fuel)
    (h : Ascending pos n (ms.map Motif.interval)) :
    ∃ ws, allWindows fuel cost reach size mode (segmentsFrom n pos ms) = some ws ∧
      Bounded size pos n ws := by
  have hgap : ∀ a b mode, a ≤ b → b ≤ n →
      ∃ ws, chunkSegment fuel cost reach a b size mode = some ws ∧ Bounded size a b ws :=
    fun a b mode hab hb =>
    exists_chunkLoop cost reach mode hsize hab (by omega)
  induction ms generalizing pos with
  | nil =>
    rw [segmentsFrom]
    split_ifs with hmore
    · obtain ⟨ws, hws, hbounded⟩ := hgap pos n mode hmore.le le_rfl
      refine ⟨ws ++ [], ?_, by rwa [List.append_nil]⟩
      rw [allWindows, segmentWindows, hws]
      rfl
    · exact ⟨[], rfl, bounded_nil h⟩
  | cons m ms ih =>
    obtain ⟨hlo, hlt, hrest⟩ := h
    dsimp only [Motif.interval] at hlo hlt hrest
    obtain ⟨rest, hrestWindows, hrestBounded⟩ := ih hrest
    have hmotif : ∃ ws, segmentWindows fuel cost reach size mode (.motif m) = some ws ∧
        Bounded size m.start m.stop ws := by
      rw [segmentWindows]
      split_ifs
      · exact ⟨_, rfl, bounded_motifWindows hlt size⟩
      · exact hgap m.start m.stop .blocks hlt.le hrest.le
    obtain ⟨ws, hws, hbounded⟩ := hmotif
    have htail : allWindows fuel cost reach size mode (.motif m :: segmentsFrom n m.stop ms) =
        some (ws ++ rest) := by
      rw [allWindows, hws, Option.bind_some, hrestWindows]
      rfl
    have hall : Bounded size m.start n (ws ++ rest) :=
      bounded_append.mpr ⟨m.stop, hbounded, hrestBounded⟩
    rw [segmentsFrom]
    split_ifs with hmore
    · obtain ⟨before, hbefore, hbeforeBounded⟩ :=
        hgap pos m.start mode hlo (hlt.le.trans hrest.le)
      refine ⟨before ++ (ws ++ rest), ?_, bounded_append.mpr ⟨m.start, hbeforeBounded, hall⟩⟩
      rw [List.cons_append, List.nil_append, allWindows, segmentWindows, hbefore, Option.bind_some,
        htail]
      rfl
    · exact ⟨ws ++ rest, htail, hall.mono hlo le_rfl⟩

/-- The windows of periodic segments alone. -/
theorem bounded_flatMap_motifWindows (h : Ascending pos n (ms.map Motif.interval)) :
    Bounded size pos n (ms.flatMap fun m => motifWindows m size) := by
  induction ms generalizing pos with
  | nil => exact bounded_nil h
  | cons m ms ih =>
    obtain ⟨hlo, hlt, hrest⟩ := h
    exact bounded_append.mpr ⟨m.stop, (bounded_motifWindows hlt size).mono hlo le_rfl, ih hrest⟩

/-- The windows before the later passes are in order and not too large. -/
theorem exists_firstWindows (cost reach : List ℤ) (mode : Mode) (hsize : 0 < size)
    (hfuel : n ≤ fuel) (h : Ascending 0 n (ms.map Motif.interval)) :
    ∃ ws, firstWindows fuel cost reach size mode n ms = some ws ∧ Bounded size 0 n ws := by
  unfold firstWindows
  split_ifs
  · exact ⟨_, rfl, bounded_flatMap_motifWindows h⟩
  have hsorted : (ms.mergeSort fun m m' => m.start ≤ m'.start) = ms :=
    mergeSort_eq_self Motif.interval h
  unfold segments
  rw [hsorted]
  dsimp only
  split_ifs with hnone
  · -- Without parts the run is empty.
    obtain ⟨ws, hws, hbounded⟩ :=
      exists_chunkLoop cost reach mode hsize (Nat.zero_le n) (by omega : n - 0 ≤ fuel)
    refine ⟨ws ++ [], ?_, by rwa [List.append_nil]⟩
    rw [allWindows, segmentWindows, chunkSegment, hws]
    rfl
  · exact exists_allWindows cost reach mode hsize hfuel h

/-! ### Runs -/

/-- The later passes end, and what they leave is in order, not too large, and legal. -/
theorem exists_laterPasses {reach : List ℤ} {ws : List (ℕ × ℕ)} (mode : Mode) (g : PruneGraph)
    (idx : List ℕ) (minOps : ℤ) (h : Bounded size 0 reach.length ws) (hfuel : reach.length ≤ fuel) :
    ∃ wins, mergeSmall fuel
        (if mode ≠ .motif then coalesce (fixBoundaries (sorted ws) reach size) reach size
          else fixBoundaries (sorted ws) reach size) g idx size minOps = some wins ∧
      Bounded size 0 reach.length (fixBoundaries wins reach size) ∧
      ∀ w ∈ fixBoundaries wins reach size, legalEnd reach w.1 w.2 := by
  rw [sorted_eq_self h.ascending]
  have hfixed := (fixBoundaries_spec h).1
  have hmerged : Bounded size 0 reach.length
      (if mode ≠ .motif then coalesce (fixBoundaries ws reach size) reach size
        else fixBoundaries ws reach size) := by
    split_ifs
    · exact bounded_coalesce hfixed
    · exact hfixed
  have hcount := length_le hmerged.ascending
  obtain ⟨wins, hwins, hbounded⟩ := exists_mergeLoop
    (fun w => countNonalias g idx w < minOps) hmerged (by omega : _ ≤ fuel)
  exact ⟨wins, hwins, fixBoundaries_spec hbounded⟩

/-- For every run, mode, size and order of costs, and the segments that are detected in whatever
kinds the ops have: `partition_run` does not run its `while` loops more often than there are ops.
Its windows are intervals of the run in ascending order, not empty and not too large. No view that
is made in one of them is returned or read behind it. -/
theorem partitionRun_legal {Token : Type} [DecidableEq Token] (g : PruneGraph) (idx : List ℕ)
    {size : ℕ} (hsize : 2 ≤ size) (mode : Mode) (minOps : ℤ) (kindToken : PruneOp → Token)
    (detected : Option (ℕ × ℕ)) (cost : Option (List ℤ)) {fuel : ℕ} (hfuel : idx.length ≤ fuel) :
    ∃ wins : List (ℕ × ℕ),
      partitionRun fuel g idx size mode minOps (detected.map fun limits =>
        detectMotifs (idx.map fun i => kindToken (opAt g i)) limits.1 limits.2) cost none =
          some (wins.map (opsOf idx)) ∧
      wins.Pairwise (fun v w => v.2 ≤ w.1) ∧
      ∀ w ∈ wins, w.1 < w.2 ∧ w.2 ≤ idx.length ∧ w.2 - w.1 ≤ size ∧
        ∀ p i t, w.1 ≤ p → p < w.2 → idx[p]? = some i → (opAt g i).op ∈ aliasOps →
          t ∈ (opAt g i).outputs →
          t ∉ graphOuts g ∧ ∀ q j, w.2 ≤ q → idx[q]? = some j → t ∉ (opAt g j).inputs := by
  set motifs : Option (List Motif) := detected.map fun limits =>
    detectMotifs (idx.map fun i => kindToken (opAt g i)) limits.1 limits.2
  have hdetected : Ascending 0 idx.length ((motifs.getD []).map Motif.interval) := by
    cases detected with
    | none => exact Nat.zero_le _
    | some limits =>
      have hall := ascending_detectMotifs (idx.map fun i => kindToken (opAt g i)) limits.1 limits.2
      rwa [List.length_map] at hall
  have hsnapped : Ascending 0 idx.length ((snapMotifs ((motifs.getD []).filter fun m =>
      m.period ≤ size) (aliasReach g idx)).map Motif.interval) :=
    ascending_snapMotifs (hdetected.sublist (List.filter_sublist.map _))
  have hlength : (aliasReach g idx).length = idx.length := List.length_map _
  obtain ⟨ws, hws, hbounded⟩ := exists_firstWindows (cost.getD (cutCosts g idx))
    (aliasReach g idx) mode (by omega : 0 < size) hfuel hsnapped
  rw [← hlength] at hbounded hfuel
  obtain ⟨wins, hwins, hfinal, hlegal⟩ := exists_laterPasses mode g idx minOps hbounded hfuel
  refine ⟨fixBoundaries wins (aliasReach g idx) size, ?_, hfinal.ascending.pairwise, ?_⟩
  · unfold partitionRun
    dsimp only [Option.getD_none]
    rw [hws, Option.bind_some, hwins]
    rfl
  · intro w hw
    obtain ⟨-, hlt, hle⟩ := hfinal.ascending.of_mem hw
    rw [hlength] at hle
    refine ⟨hlt, hle, hfinal.size_le w hw, fun p i t hp hpw hi halias ht => ?_⟩
    exact of_legalEnd_aliasReach (hlegal w hw) hle hp hpw hi halias ht

/-- A view between two ops, and an op behind them. -/
def viewChain : PruneGraph where
  ops := [⟨"conv", ["x"], ["a"]⟩, ⟨"view", ["a"], ["v"]⟩, ⟨"relu", ["v"], ["b"]⟩,
    ⟨"relu", ["b"], ["c"]⟩]
  output := some ⟨none, some "c"⟩

/-- Windows of two ops do not part the view from its reader. -/
theorem partitionRun_legal_viewChain :
    ∃ wins : List (ℕ × ℕ),
      partitionRun 4 viewChain [0, 1, 2, 3] 2 .chunk 1 none none none =
          some (wins.map (opsOf [0, 1, 2, 3])) ∧
        wins.Pairwise (fun v w => v.2 ≤ w.1) ∧ (1, 2) ∉ wins := by
  obtain ⟨wins, hwins, hpair, hall⟩ := partitionRun_legal viewChain [0, 1, 2, 3]
    (by decide : 2 ≤ 2) .chunk 1 PruneOp.op none none (by decide : [0, 1, 2, 3].length ≤ 4)
  refine ⟨wins, hwins, hpair, fun hmem => ?_⟩
  have hview := (hall (1, 2) hmem).2.2.2 1 1 "v" le_rfl (by decide) rfl (by decide) (by decide)
  exact hview.2 2 2 le_rfl rfl (by decide)

end ModelBlaster.RegionWindows

/-! ## Which periodic segments are found -/

namespace ModelBlaster.RegionWindows

open Intervals List

variable {Token : Type}

/-- A part `[a, b)` of a sequence that repeats with period `p`. -/
structure Periodic (tokens : List Token) (p a b : ℕ) : Prop where
  pos : 0 < p
  lt : a < b
  le : b ≤ tokens.length
  repeats : ∀ i, a ≤ i → i + p < b → tokens[i]? = tokens[i + p]?

/-- A part that repeats, and that is in no longer one. -/
structure MaximalPeriodic (tokens : List Token) (p a b : ℕ) : Prop extends
    Periodic tokens p a b where
  maximal : ∀ a' b', a' ≤ a → b ≤ b' → Periodic tokens p a' b' → a' = a ∧ b' = b

/-- `[a, b)`, cut down to whole periods. -/
def motifOf (p a b : ℕ) : Motif := ⟨a, p, (b - a) / p⟩

/-! ### Runs -/

/-- `same`: the token at `i` comes again a period later. -/
def Same (tokens : List Token) (p i : ℕ) : Prop :=
  i < tokens.length - p ∧ tokens[i]? = tokens[i + p]?

/-- The longest run of such positions around `a`. -/
structure Run (tokens : List Token) (p a c : ℕ) : Prop where
  lt : a < c
  same : ∀ i, a ≤ i → i < c → Same tokens p i
  left : a = 0 ∨ ¬Same tokens p (a - 1)
  right : ¬Same tokens p c

variable {tokens : List Token} {p a b c least : ℕ}

theorem Run.le (h : Run tokens p a c) : c ≤ tokens.length - p := by
  have hlast := (h.same (c - 1) (Nat.le_sub_one_of_lt h.lt) (Nat.sub_one_lt_of_lt h.lt)).1
  omega

/-- A run is known by its end. -/
theorem Run.start_eq {a' : ℕ} (h : Run tokens p a c) (h' : Run tokens p a' c) : a' = a := by
  have hlt := h.lt
  have hlt' := h'.lt
  by_contra hne
  rcases Nat.lt_or_gt_of_ne hne with hlow | hhigh
  · rcases h.left with hzero | hnot
    · omega
    · exact hnot (h'.same (a - 1) (by omega) (by omega))
  · rcases h'.left with hzero | hnot
    · omega
    · exact hnot (h.same (a' - 1) (by omega) (by omega))

/-- The positions of a maximal segment that come again are a run. -/
theorem MaximalPeriodic.run (h : MaximalPeriodic tokens p a b) (hlong : p < b - a) :
    Run tokens p a (b - p) := by
  have hpos := h.pos
  have hle := h.le
  constructor
  case lt => omega
  case same =>
    intro i hlo hhi
    exact ⟨by omega, h.repeats i hlo (by omega)⟩
  case left =>
    by_contra hboth
    rw [not_or, not_not] at hboth
    obtain ⟨hzero, -, hsame⟩ := hboth
    -- The segment could begin one position earlier.
    have hlonger : Periodic tokens p (a - 1) b := by
      refine ⟨hpos, by omega, hle, fun i hlo hhi => ?_⟩
      by_cases hi : i = a - 1
      · rw [hi]
        exact hsame
      · exact h.repeats i (by omega) hhi
    have heq := (h.maximal (a - 1) b (Nat.sub_le a 1) le_rfl hlonger).1
    omega
  case right =>
    rintro ⟨hlt, hsame⟩
    -- The segment could end one position later.
    have hlonger : Periodic tokens p a (b + 1) := by
      refine ⟨hpos, by omega, by omega, fun i hlo hhi => ?_⟩
      by_cases hi : i = b - p
      · rw [hi]
        exact hsame
      · exact h.repeats i hlo (by omega)
    have heq := (h.maximal a (b + 1) le_rfl (Nat.le_succ b) hlonger).2
    omega

/-! ### The scan -/

/-- After `k` positions: the runs that have ended, and the one that has not. -/
structure ScanState.Exact (tokens : List Token) (least p k : ℕ) (st : ScanState) : Prop where
  segs : ∀ m, m ∈ st.segs ↔
    ∃ a c, Run tokens p a c ∧ c < k ∧ least ≤ (c + p - a) / p ∧ m = ⟨a, p, (c + p - a) / p⟩
  inside : ∀ a, st.a = some a →
    a < k ∧ (∀ i, a ≤ i → i < k → Same tokens p i) ∧ (a = 0 ∨ ¬Same tokens p (a - 1))
  outside : st.a = none → k = 0 ∨ ¬Same tokens p (k - 1)

/-- No run ends at a position that comes again. -/
theorem ScanState.Exact.segs_succ {k : ℕ} {st : ScanState} (h : st.Exact tokens least p k)
    (hend : ∀ a, ¬Run tokens p a k) (m : Motif) : m ∈ st.segs ↔
      ∃ a c, Run tokens p a c ∧ c < k + 1 ∧ least ≤ (c + p - a) / p ∧
        m = ⟨a, p, (c + p - a) / p⟩ := by
  rw [h.segs]
  refine exists_congr fun a => exists_congr fun c => and_congr_right fun hrun =>
    and_congr_left fun _ => ⟨fun hc => hc.trans (Nat.lt_succ_self k), fun hc => ?_⟩
  refine lt_of_le_of_ne (Nat.le_of_lt_succ hc) fun heq => ?_
  exact hend a (heq ▸ hrun)

section Scan

variable [DecidableEq Token]

theorem ScanState.Exact.step {k : ℕ} {st : ScanState} (h : st.Exact tokens least p k) :
    (scanStep tokens least p st k).Exact tokens least p (k + 1) := by
  obtain ⟨cur, segs⟩ := st
  unfold scanStep
  dsimp only
  by_cases hsame : Same tokens p k
  · have hcond : k < tokens.length - p ∧ tokens[k]? = tokens[k + p]? := hsame
    have hend : ∀ a, ¬Run tokens p a k := fun a hrun => hrun.right hsame
    cases cur with
    | none =>
      rw [if_pos hcond]
      refine ⟨h.segs_succ hend, fun a ha => ?_, fun hnone => (nomatch hnone)⟩
      obtain rfl := Option.some.inj ha
      refine ⟨Nat.lt_succ_self k, fun i hlo hhi => ?_, h.outside rfl⟩
      rwa [Nat.le_antisymm (Nat.le_of_lt_succ hhi) hlo]
    | some a =>
      dsimp only
      rw [if_pos hcond]
      refine ⟨h.segs_succ hend, fun a' ha => ?_, fun hnone => (nomatch hnone)⟩
      obtain ⟨hlt, hrun, hleft⟩ := h.inside a' ha
      refine ⟨hlt.trans (Nat.lt_succ_self k), fun i hlo hhi => ?_, hleft⟩
      rcases Nat.lt_succ_iff_lt_or_eq.mp hhi with hhi | rfl
      · exact hrun i hlo hhi
      · exact hsame
  · have hcond : ¬(k < tokens.length - p ∧ tokens[k]? = tokens[k + p]?) := hsame
    cases cur with
    | none =>
      have hend : ∀ a, ¬Run tokens p a k := by
        intro a hrun
        have hlt := hrun.lt
        rcases h.outside rfl with hzero | hnot
        · omega
        · exact hnot (hrun.same (k - 1) (by omega) (by omega))
      rw [if_neg hcond]
      exact ⟨h.segs_succ hend, fun a ha => (nomatch ha), fun _ => .inr hsame⟩
    | some a =>
      obtain ⟨hlt, hall, hleft⟩ := h.inside a rfl
      have hrun : Run tokens p a k := ⟨hlt, hall, hleft, hsame⟩
      dsimp only
      rw [if_neg hcond]
      refine ⟨fun m => ?_, fun a ha => (nomatch ha), fun _ => .inr hsame⟩
      -- One run ends here, and is kept if it has enough periods.
      have hsplit : (∃ a c, Run tokens p a c ∧ c < k + 1 ∧ least ≤ (c + p - a) / p ∧
          m = ⟨a, p, (c + p - a) / p⟩) ↔
            m ∈ segs ∨ least ≤ (k + p - a) / p ∧ m = ⟨a, p, (k + p - a) / p⟩ := by
        rw [h.segs]
        constructor
        · rintro ⟨a', c, hrun', hc, hkept⟩
          rcases Nat.lt_succ_iff_lt_or_eq.mp hc with hc | rfl
          · exact .inl ⟨a', c, hrun', hc, hkept⟩
          · rw [hrun.start_eq hrun'] at hkept
            exact .inr hkept
        · rintro (⟨a', c, hrun', hc, hkept⟩ | hkept)
          · exact ⟨a', c, hrun', hc.trans (Nat.lt_succ_self k), hkept⟩
          · exact ⟨a, k, hrun, Nat.lt_succ_self k, hkept⟩
      rw [hsplit]
      split_ifs with hleast
      · rw [mem_append, mem_singleton, and_iff_right hleast]
      · rw [or_iff_left fun hkept => hleast hkept.1]

variable {m : Motif} {maxPeriod : ℕ}

/-- The scan finds the runs with enough periods. -/
theorem mem_scanPeriod_iff : m ∈ scanPeriod tokens least p ↔
    ∃ a c, Run tokens p a c ∧ least ≤ (c + p - a) / p ∧ m = ⟨a, p, (c + p - a) / p⟩ := by
  have hinv : ∀ k, ((List.range k).foldl (scanStep tokens least p) ⟨none, []⟩).Exact
      tokens least p k := by
    intro k
    induction k with
    | zero =>
      refine ⟨fun m => ⟨fun hm => absurd hm not_mem_nil, ?_⟩, fun a ha => (nomatch ha),
        fun _ => .inl rfl⟩
      rintro ⟨a, c, -, hc, -⟩
      exact absurd hc (Nat.not_lt_zero c)
    | succ k ih =>
      rw [range_succ, foldl_append]
      exact ih.step
  rw [scanPeriod, (hinv _).segs]
  refine exists_congr fun a => exists_congr fun c => and_congr_right fun hrun =>
    and_iff_right ?_
  -- The last position that is scanned does not come again.
  exact Nat.lt_succ_of_le hrun.le

/-! ### What is taken -/

theorem before_trans {m' m'' : Motif} (h : before m m' = true) (h' : before m' m'' = true) :
    before m m'' = true := by
  unfold before at h h' ⊢
  rw [decide_eq_true_iff] at h h' ⊢
  omega

theorem before_total (m m' : Motif) : (before m m' || before m' m) = true := by
  unfold before
  rw [Bool.or_eq_true, decide_eq_true_iff, decide_eq_true_iff]
  omega

/-- The segments of all periods. -/
def candidates (tokens : List Token) (maxPeriod least : ℕ) : List Motif :=
  (List.range' 1 (min maxPeriod (tokens.length / least))).flatMap (scanPeriod tokens least)

theorem mem_detectMotifs_iff :
    m ∈ detectMotifs tokens maxPeriod least ↔
      m ∈ Greedy.choose overlaps ((candidates tokens maxPeriod least).mergeSort before) :=
  mem_mergeSort

/-- What is taken is a run, cut down to whole periods. -/
theorem mem_candidates (h : m ∈ candidates tokens maxPeriod least) :
    (1 ≤ m.period ∧ m.period ≤ maxPeriod) ∧ least ≤ m.reps ∧
      ∃ c, Run tokens m.period m.start c ∧ m.reps = (c + m.period - m.start) / m.period := by
  obtain ⟨p, hp, hscan⟩ := mem_flatMap.mp h
  obtain ⟨a, c, hrun, hleast, rfl⟩ := mem_scanPeriod_iff.mp hscan
  rw [mem_range'_1] at hp
  have hle : p ≤ maxPeriod := by
    omega
  exact ⟨⟨hp.1, hle⟩, hleast, c, hrun, rfl⟩

/-- A maximal segment with enough periods is found. -/
theorem MaximalPeriodic.mem_candidates (h : MaximalPeriodic tokens p a b) (hleast : 0 < least)
    (hp : p ≤ maxPeriod) (hlong : p < b - a) (hreps : least ≤ (b - a) / p) :
    motifOf p a b ∈ candidates tokens maxPeriod least := by
  have hfit : p ≤ tokens.length / least := by
    rw [Nat.le_div_iff_mul_le hleast, Nat.mul_comm]
    have hmul := (Nat.le_div_iff_mul_le h.pos).mp hreps
    have hle := h.le
    omega
  refine mem_flatMap.mpr ⟨p, mem_range'_1.mpr ⟨h.pos, ?_⟩, ?_⟩
  · have hmin := le_min hp hfit
    omega
  · have hend : b - p + p - a = b - a := by omega
    refine mem_scanPeriod_iff.mpr ⟨a, b - p, h.run hlong, ?_, ?_⟩
    · rwa [hend]
    · rw [hend, motifOf]

/-- The segments that are taken lie in the sequence one after the other, and their tokens come again a
period later. A maximal segment of more than one period that is not taken overlaps one that covers at
least as much. -/
theorem detectMotifs_exact (tokens : List Token) (maxPeriod least : ℕ) (hleast : 1 ≤ least) :
    ((detectMotifs tokens maxPeriod least).Pairwise fun m m' =>
        m.start < m'.start ∧ m.stop ≤ m'.start) ∧
    (∀ m ∈ detectMotifs tokens maxPeriod least,
      m.stop ≤ tokens.length ∧ (1 ≤ m.period ∧ m.period ≤ maxPeriod) ∧ least ≤ m.reps ∧
        ∀ i, m.start ≤ i → i + m.period < m.stop → tokens[i]? = tokens[i + m.period]?) ∧
    ∀ p a b, MaximalPeriodic tokens p a b → p ≤ maxPeriod → p < b - a → least ≤ (b - a) / p →
      motifOf p a b ∉ detectMotifs tokens maxPeriod least →
        ∃ m ∈ detectMotifs tokens maxPeriod least, overlaps (motifOf p a b) m = true ∧
          p * ((b - a) / p) ≤ m.period * m.reps := by
  have hascending := ascending_detectMotifs tokens maxPeriod least
  refine ⟨?_, fun m hm => ?_, fun p a b hseg hp hlong hreps hnot => ?_⟩
  · refine (pairwise_map.mp hascending.pairwise).imp_of_mem fun {m m'} hm _ hle => ⟨?_, hle⟩
    exact lt_of_lt_of_le (hascending.of_mem (mem_map_of_mem hm)).2.1 hle
  · have hfound := mem_mergeSort.mp (Greedy.choose_subset _ _ (mem_detectMotifs_iff.mp hm))
    obtain ⟨hperiod, henough, c, hrun, hcount⟩ := mem_candidates hfound
    refine ⟨(hascending.of_mem (mem_map_of_mem hm)).2.2, hperiod, henough, ?_⟩
    intro i hlo hhi
    have hwhole : m.period * m.reps ≤ c + m.period - m.start := by
      rw [hcount]
      exact Nat.mul_div_le _ _
    have hlt := hrun.lt
    unfold Motif.stop at hhi
    exact (hrun.same i hlo (by omega)).2
  · have hsorted : ((candidates tokens maxPeriod least).mergeSort before).Pairwise
        (before · · = true) := by
      apply pairwise_mergeSort
      · exact fun m m' m'' => before_trans
      · exact before_total
    have hmem : motifOf p a b ∈ (candidates tokens maxPeriod least).mergeSort before :=
      mem_mergeSort.mpr (hseg.mem_candidates hleast hp hlong hreps)
    obtain htaken | ⟨m, hm, hoverlap, hbefore⟩ :=
      @Greedy.mem_choose_or_clash _ overlaps _ _ _ hsorted hmem
    · exact absurd (mem_detectMotifs_iff.mpr htaken) hnot
    · refine ⟨m, mem_detectMotifs_iff.mpr hm, hoverlap, ?_⟩
      rw [before, decide_eq_true_iff] at hbefore
      change p * ((b - a) / p) < m.period * m.reps ∨ p * ((b - a) / p) = m.period * m.reps ∧ _
        at hbefore
      rcases hbefore with hlt | ⟨heq, -⟩
      · exact hlt.le
      · exact heq.le

/-- "ababab" repeats with period 2 three times. -/
theorem detectMotifs_exact_abab :
    (detectMotifs ['a', 'b', 'a', 'b', 'a', 'b'] 4 3).Pairwise fun m m' =>
      m.start < m'.start ∧ m.stop ≤ m'.start :=
  (detectMotifs_exact ['a', 'b', 'a', 'b', 'a', 'b'] 4 3 (by decide)).1

/-- One period is enough here, but without a token that comes again there is no run. "ab" repeats
with period 2 and cannot be made longer, and nothing is found. -/
theorem not_found_single_period :
    MaximalPeriodic ['a', 'b'] 2 0 2 ∧ 2 ≤ 2 ∧ 1 ≤ (2 - 0) / 2 ∧
      motifOf 2 0 2 ∉ detectMotifs ['a', 'b'] 2 1 ∧
      ¬∃ m ∈ detectMotifs ['a', 'b'] 2 1, overlaps (motifOf 2 0 2) m = true ∧
        2 * ((2 - 0) / 2) ≤ m.period * m.reps := by
  have hnone : detectMotifs ['a', 'b'] 2 1 = [] := by decide +kernel
  refine ⟨⟨⟨by decide, by decide, by decide, fun i _ hi => by omega⟩, ?_⟩, by decide, by decide,
    ?_, ?_⟩
  · intro a' b' ha hb h
    exact ⟨Nat.le_zero.mp ha, le_antisymm h.le hb⟩
  · rw [hnone]
    exact not_mem_nil
  · rw [hnone]
    rintro ⟨m, hm, -⟩
    exact not_mem_nil hm

end Scan

end ModelBlaster.RegionWindows
