import ModelBlaster.Library.PyDict
import ModelBlaster.Regions.FuseRegion

/-!
# Levels of a region

The tensors that views and chunks make are places in other tensors. A member depends on the members
that make the tensors its inputs are places in; its level is greater than theirs.

## Main definitions

* `levels`: `_levels`;
* `aliasOffsets`: the tensors of a view or a chunk, with their offsets;
* `PtrExpr`: the pointers that are written;
* `regionSeed`: the calls of the seed, level by level;
* `IrMembers`: what is asked of members in the order of the graph;
* `Chain`: the place of a tensor, along views and chunks;
* `addrOf`: the same as a function.

## Main results

* `Chain.addrOf_eq`: the function finds the places;
* `level_lt`: the level of a member is greater than those of the members that it depends on.
-/

/-! ## Region seeds -/

namespace ModelBlaster.RegionSlots

open GraphPrune RegionWindows

/-! ### Levels -/

/-- `prod` and `lv` -/
structure LevelState where
  prod : PyDict String ℕ
  lv : List ℤ

/-- `max` of the levels of what is read, or -1. -/
def topLevel (st : LevelState) (inputs : List String) : ℤ :=
  (inputs.filterMap fun t => (st.prod.get? t).map fun d => st.lv.getD d (-1)).foldl max (-1)

/-- The body of the loop of `_levels`. -/
def levelStep (st : LevelState) (m : RegionOp) : LevelState :=
  if m.isAlias then
    match m.inputs.head?.bind st.prod.get? with
    | none => { st with lv := st.lv ++ [-1] }
    | some p => ⟨m.outputs.foldl (fun d t => d.set t p) st.prod, st.lv ++ [-1]⟩
  else
    ⟨(m.outputs ++ m.internal).foldl (fun d t => d.set t st.lv.length) st.prod,
      st.lv ++ [1 + topLevel st m.inputs]⟩

/-- `_levels`, with the producers of the tensors. -/
def levelRun (members : List RegionOp) : LevelState := members.foldl levelStep ⟨PyDict.empty, []⟩

/-- `_levels` -/
def levels (members : List RegionOp) : List ℤ := (levelRun members).lv

/-! ### Pointers -/

/-- A pointer expression in C. -/
inductive PtrExpr where
  /-- A parameter. -/
  | param (name : String)
  /-- Python's `None`, where a base is missing. -/
  | missing
  /-- `(e + k)` -/
  | add (e : PtrExpr) (k : ℤ)
deriving DecidableEq, Repr

/-- Why there is no seed. -/
inductive SeedError where
  /-- `KeyError` or `IndexError` -/
  | missing
  /-- "chunk2_c1 inside a region needs shape.hw" -/
  | noHw
  /-- "…: a fused member needs its source in sub_sources" -/
  | noSource (name : String)
deriving DecidableEq, Repr

/-- The tensors of a view or a chunk, with their offsets from the base. -/
def aliasOffsets (m : RegionOp) : Except SeedError (List (String × ℤ)) :=
  if m.op = "view" then
    match m.outputs with
    | [] => .error .missing
    | t :: _ => .ok [(t, m.offset)]
  else
    match m.hw, m.cEach, m.outputs with
    | none, _, _ => .error .noHw
    | some _, _, [] => .ok []
    | some _, none, _ :: _ => .error .missing
    -- chunk2_c1: outputs k at k * c_each * hw
    | some hw, some cEach, t :: ts => .ok ((t :: ts).zipIdx.map fun p => (p.1, p.2 * cEach * hw))

/-- The key of a parameter in `pname`. -/
def RegionParam.key (p : RegionParam) : String :=
  match p.role with
  | .weight => weightKey p.value
  | _ => p.value

/-- `pname` -/
def paramNames (params : List RegionParam) : PyDict String String :=
  PyDict.ofList (params.map fun p => (p.key, p.name))

/-! ### Seeds -/

/-- An argument of a call. -/
inductive SeedArg where
  | ptr (e : PtrExpr)
  | null
  | scalar (text : String)
deriving DecidableEq, Repr

/-- A call of a member's kernel: the number of the member, and the arguments with their kinds. -/
structure SeedCall where
  member : ℕ
  args : List (ArgKind × SeedArg)
deriving DecidableEq, Repr

/-- `local`, and the calls with their levels. -/
structure SeedState where
  aliases : PyDict String PtrExpr
  calls : List (ℤ × SeedCall)

/-- What `region_seed` depends on besides its members: the arguments that `_member_args` finds, and
whether a source is found for the members' kernels. -/
structure SeedEnv extends RegionEnv where
  hasSource : RegionOp → Bool

section
variable (env : SeedEnv) (pname : PyDict String String)

/-- `local.get(t, pname.get(t))` -/
def baseExpr (aliases : PyDict String PtrExpr) (t : String) : PtrExpr :=
  ((aliases.get? t).or ((pname.get? t).map PtrExpr.param)).getD .missing

/-- What is written for an argument. -/
def seedArg (aliases : PyDict String PtrExpr) (a : RegionArg) :
    Except SeedError (ArgKind × SeedArg) :=
  match a.kind with
  | .null => .ok (a.kind, .null)
  | .scalar => .ok (a.kind, .scalar a.value)
  | .weight =>
    match pname.get? (weightKey a.value) with
    | none => .error .missing
    | some name => .ok (a.kind, .ptr (.param name))
  | _ =>
    match (aliases.get? a.value).or ((pname.get? a.value).map PtrExpr.param) with
    | none => .error .missing
    | some e => .ok (a.kind, .ptr e)

/-- A view or a chunk enters `local`. -/
def aliasSeed (st : SeedState) (m : RegionOp) : Except SeedError SeedState :=
  match m.inputs with
  | [] => .error .missing
  | src :: _ =>
    (aliasOffsets m).map fun l =>
      let base := baseExpr pname st.aliases src
      { st with aliases := l.foldl (fun d p => d.set p.1 (.add base p.2)) st.aliases }

/-- Another member is called, at a level. -/
def callSeed (st : SeedState) (m : RegionOp) (i : ℕ) (level : ℤ) : Except SeedError SeedState :=
  if !env.hasSource m then .error (.noSource m.name)
  else
    match env.args m with
    | none => .error .missing
    | some args =>
      (args.mapM (seedArg pname st.aliases)).map fun passed =>
        { st with calls := st.calls ++ [(level, ⟨i, passed⟩)] }

/-- The body of the loop of `region_seed` over the members, with their levels. -/
def seedStep (st : SeedState) (p : (RegionOp × ℤ) × ℕ) : Except SeedError SeedState :=
  if p.1.1.isAlias then aliasSeed pname st p.1.1 else callSeed env pname st p.1.1 p.2 p.1.2

/-- The loop of `region_seed` over the members. -/
def seedRun (members : List RegionOp) : Except SeedError SeedState :=
  (members.zip (levels members)).zipIdx.foldlM (seedStep env pname) ⟨PyDict.empty, []⟩

end

/-- `by_level`, with its keys in ascending order. -/
def byLevel (calls : List (ℤ × SeedCall)) : List (List SeedCall) :=
  (PyList.sortedSet (calls.map Prod.fst)).map fun level =>
    (calls.filter fun c => c.1 = level).map Prod.snd

/-- A seed: the expressions of views and chunks, and the calls, level by level. Those of one level
run concurrently, or in their order. -/
structure RegionSeed where
  aliases : PyDict String PtrExpr
  groups : List (List SeedCall)

/-- `region_seed` -/
def regionSeed (env : SeedEnv) (params : List RegionParam) (members : List RegionOp) :
    Except SeedError RegionSeed :=
  (seedRun env (paramNames params) members).map fun st => ⟨st.aliases, byLevel st.calls⟩

open List

/-- What a member makes. -/
def RegionOp.made (m : RegionOp) : List String := m.outputs ++ m.internal

/-- The arguments of a member: it reads its inputs and what it has made, and writes what it makes;
its outputs are among them. -/
structure MemberArgs (m : RegionOp) (args : List RegionArg) : Prop where
  reads : ∀ a ∈ args, a.kind = .input → a.value ∈ m.inputs ∨ a.value ∈ m.made
  writes : ∀ a ∈ args, a.kind = .output ∨ a.kind = .scratch → a.value ∈ m.made
  outputs : ∀ t ∈ m.outputs, ∃ a ∈ args, a.kind = .output ∧ a.value = t

/-- Members in the order of the graph. -/
structure IrMembers (env : SeedEnv) (members : List RegionOp) : Prop where
  /-- A tensor is made once. -/
  nodup : (madeBy members).Nodup
  /-- A tensor is made before it is read. -/
  topological : ∀ pre m post, members = pre ++ m :: post → ∀ t ∈ m.inputs, t ∉ madeBy (m :: post)
  /-- A view has one output, a chunk has two. -/
  aliases : ∀ m ∈ members, m.isAlias = true → m.outputs.length = if m.op = "view" then 1 else 2
  args : ∀ m ∈ members, m.isAlias = false → ∀ args, env.args m = some args → MemberArgs m args

/-! ### Places -/

/-- A tensor is a place in a base: it is not made by a view or a chunk, or the offsets along views
and chunks lead to it. -/
inductive Chain (members : List RegionOp) : String → String → ℤ → Prop where
  | base {t : String} (h : t ∉ aliasOuts members) : Chain members t t 0
  | step {m : RegionOp} {src t b : String} {offsets : List (String × ℤ)} {k off : ℤ}
      (hm : m ∈ members) (halias : m.isAlias = true) (hsrc : m.inputs.head? = some src)
      (hoffsets : aliasOffsets m = .ok offsets) (ht : (t, k) ∈ offsets)
      (hchain : Chain members src b off) : Chain members t b (off + k)

/-- The outputs of a view or a chunk are places in what its input is a place in. -/
def addrStep (addr : String → String × ℤ) (m : RegionOp) : String → String × ℤ :=
  match m.isAlias, m.inputs.head?, aliasOffsets m with
  | true, some src, .ok offsets => fun t =>
    match offsets.lookup t with
    | some k => ((addr src).1, (addr src).2 + k)
    | none => addr t
  | _, _, _ => addr

/-- The place of a tensor: its base, and the sum of the offsets. -/
def addrOf (members : List RegionOp) : String → String × ℤ :=
  members.foldl addrStep fun t => (t, 0)

section Made

theorem madeBy_append (l l' : List RegionOp) : madeBy (l ++ l') = madeBy l ++ madeBy l' :=
  flatMap_append

theorem madeBy_cons (m : RegionOp) (l : List RegionOp) : madeBy (m :: l) = m.made ++ madeBy l :=
  flatMap_cons

variable {l : List RegionOp} {t : String}

theorem mem_madeBy_iff : t ∈ madeBy l ↔ ∃ m ∈ l, t ∈ m.made :=
  mem_flatMap

theorem aliasOuts_append (l l' : List RegionOp) :
    aliasOuts (l ++ l') = aliasOuts l ++ aliasOuts l' := by
  rw [aliasOuts, filter_append, flatMap_append]
  rfl

theorem mem_aliasOuts :
    t ∈ aliasOuts l ↔ ∃ m ∈ l, m.isAlias = true ∧ t ∈ m.outputs := by
  rw [aliasOuts, mem_flatMap]
  constructor
  · rintro ⟨m, hm, ht⟩
    obtain ⟨hmem, halias⟩ := mem_filter.mp hm
    exact ⟨m, hmem, halias, ht⟩
  · rintro ⟨m, hmem, halias, ht⟩
    exact ⟨m, mem_filter.mpr ⟨hmem, halias⟩, ht⟩

theorem mem_madeBy_of_mem_aliasOuts (h : t ∈ aliasOuts l) :
    t ∈ madeBy l := by
  obtain ⟨m, hm, -, ht⟩ := mem_aliasOuts.mp h
  exact mem_madeBy_iff.mpr ⟨m, hm, mem_append_left _ ht⟩

theorem RegionOp.mem_made_of_mem_outputs {m : RegionOp} (h : t ∈ m.outputs) :
    t ∈ m.made :=
  mem_append_left _ h

end Made

/-! ### The tensors of views and chunks -/

theorem map_fst_zipIdx_map (l : List String) (f : ℕ → ℤ) :
    (l.zipIdx.map fun p => (p.1, f p.2)).map Prod.fst = l := by
  rw [map_map]
  exact zipIdx_map_fst 0 l

/-- The first output of a view, or all outputs of a chunk. -/
theorem map_fst_aliasOffsets {m : RegionOp} {offsets : List (String × ℤ)}
    (h : aliasOffsets m = .ok offsets) :
    offsets.map Prod.fst = if m.op = "view" then m.outputs.take 1 else m.outputs := by
  rw [aliasOffsets] at h
  by_cases hview : m.op = "view"
  · rw [if_pos hview] at h ⊢
    cases hout : m.outputs with
    | nil =>
      rw [hout] at h
      cases h
    | cons t ts =>
      rw [hout] at h
      cases h
      rfl
  · rw [if_neg hview] at h ⊢
    cases hhw : m.hw with
    | none =>
      rw [hhw] at h
      cases h
    | some hw =>
      cases hout : m.outputs with
      | nil =>
        rw [hhw, hout] at h
        cases hc : m.cEach <;> rw [hc] at h <;> cases h <;> rfl
      | cons t ts =>
        cases hc : m.cEach with
        | none =>
          rw [hhw, hc, hout] at h
          cases h
        | some c =>
          rw [hhw, hc, hout] at h
          cases h
          exact map_fst_zipIdx_map (t :: ts) fun k => k * c * hw

section
variable {env : SeedEnv} {members pre post : List RegionOp} {m : RegionOp} {t : String}
  {offsets : List (String × ℤ)} {addr : String → String × ℤ} {src : String} {j i : ℕ}

section
variable (h : IrMembers env members)
include h

/-- Every output of a view or a chunk has an offset. -/
theorem IrMembers.map_fst_offsets (hm : m ∈ members) (halias : m.isAlias = true)
    (hoffsets : aliasOffsets m = .ok offsets) :
    offsets.map Prod.fst = m.outputs := by
  rw [map_fst_aliasOffsets hoffsets]
  have hlen := h.aliases m hm halias
  split_ifs at hlen ⊢ with hview
  · exact take_of_length_le (le_of_eq hlen)
  · rfl

theorem IrMembers.nodup_made (hm : m ∈ members) : m.made.Nodup :=
  (nodup_flatMap.mp h.nodup).1 m hm

/-- What a member makes is not made elsewhere. -/
theorem IrMembers.notMem_of_made (hsplit : members = pre ++ m :: post) (ht : t ∈ m.made) :
    t ∉ madeBy pre ∧ t ∉ madeBy post := by
  have hnodup := h.nodup
  rw [hsplit, madeBy_append, madeBy_cons] at hnodup
  obtain ⟨-, hrest, hdisjoint⟩ := nodup_append.mp hnodup
  constructor
  · exact fun hpre => hdisjoint t hpre t (mem_append_left _ ht) rfl
  · exact fun hpost => (nodup_append.mp hrest).2.2 t ht t hpost rfl

end

/-! ### Steps of the places -/

theorem addrOf_append_single (pre : List RegionOp) (m : RegionOp) :
    addrOf (pre ++ [m]) = addrStep (addrOf pre) m := by
  rw [addrOf, foldl_append]
  rfl

theorem addrStep_of_not_alias (h : m.isAlias = false) :
    addrStep addr m = addr := by
  rw [addrStep, h]

theorem addrStep_of_alias (h : m.isAlias = true) (hsrc : m.inputs.head? = some src)
    (hoffsets : aliasOffsets m = .ok offsets) (t : String) :
    addrStep addr m t =
      (offsets.lookup t).elim (addr t) fun k => ((addr src).1, (addr src).2 + k) := by
  rw [addrStep, h, hsrc, hoffsets]
  show (match offsets.lookup t with | some k => _ | none => _) = _
  cases offsets.lookup t <;> rfl

theorem lookup_eq_none_of_notMem (h : t ∉ offsets.map Prod.fst) :
    offsets.lookup t = none := by
  rw [lookup_eq_none_iff]
  intro p hp
  rw [bne_iff_ne]
  exact fun heq => h (mem_map.mpr ⟨p, hp, heq.symm⟩)

/-- Members that do not make a tensor do not move it. -/
theorem addrStep_of_notMem (h : m.isAlias = true → t ∉ m.outputs) :
    addrStep addr m t = addr t := by
  cases halias : m.isAlias with
  | false => rw [addrStep_of_not_alias halias]
  | true =>
    cases hsrc : m.inputs.head? with
    | none => rw [addrStep, halias, hsrc]
    | some src =>
      cases hoffsets : aliasOffsets m with
      | error e => rw [addrStep, halias, hsrc, hoffsets]
      | ok offsets =>
        have hnot : t ∉ offsets.map Prod.fst := by
          rw [map_fst_aliasOffsets hoffsets]
          split_ifs
          · exact fun hmem => h halias (mem_of_mem_take hmem)
          · exact h halias
        rw [addrStep_of_alias halias hsrc hoffsets, lookup_eq_none_of_notMem hnot]
        rfl

theorem addrOf_append_of_notMem (h : t ∉ aliasOuts post) :
    addrOf (pre ++ post) t = addrOf pre t := by
  induction post using reverseRecOn with
  | nil => rw [append_nil]
  | append_singleton post m ih =>
    rw [aliasOuts_append, mem_append, not_or] at h
    rw [← append_assoc, addrOf_append_single, addrStep_of_notMem, ih h.1]
    exact fun halias ht => h.2 (mem_aliasOuts.mpr ⟨m, mem_singleton_self m, halias, ht⟩)

/-- A tensor that no view or chunk makes is its own base. -/
theorem addrOf_of_notMem (h : t ∉ aliasOuts members) : addrOf members t = (t, 0) :=
  @addrOf_append_of_notMem [] members t h

section
variable (h : IrMembers env members)
include h

/-- The base of a tensor is made before the tensor, or it is the tensor. -/
theorem IrMembers.base_notMem (hsplit : members = pre ++ post) (t : String) :
    (addrOf pre t).1 = t ∨ (addrOf pre t).1 ∉ madeBy post := by
  induction pre using reverseRecOn generalizing post t with
  | nil => exact .inl rfl
  | append_singleton pre m ih =>
    rw [append_assoc, singleton_append] at hsplit
    have hbefore : ∀ t, (addrOf pre t).1 = t ∨ (addrOf pre t).1 ∉ madeBy (m :: post) := ih hsplit
    have hlater : ∀ {b : String}, b ∉ madeBy (m :: post) → b ∉ madeBy post := by
      intro b hb hpost
      exact hb (mem_append_right _ hpost)
    rw [addrOf_append_single]
    have hold : (addrOf pre t).1 = t ∨ (addrOf pre t).1 ∉ madeBy post := (hbefore t).imp id hlater
    cases halias : m.isAlias with
    | false => rwa [addrStep_of_not_alias halias]
    | true =>
      cases hsrc : m.inputs.head? with
      | none => rwa [addrStep, halias, hsrc]
      | some src =>
        cases hoffsets : aliasOffsets m with
        | error e => rwa [addrStep, halias, hsrc, hoffsets]
        | ok offsets =>
          rw [addrStep_of_alias halias hsrc hoffsets]
          cases offsets.lookup t with
          | none => exact hold
          | some k =>
            -- The base is that of the input, and the input is made before.
            right
            have hin : src ∉ madeBy (m :: post) :=
              h.topological pre m post hsplit src (mem_of_mem_head? hsrc)
            show (addrOf pre src).1 ∉ madeBy post
            rcases hbefore src with heq | hnot
            · rw [heq]
              exact hlater hin
            · exact hlater hnot

/-- A tensor that is read has its place already. -/
theorem IrMembers.addrOf_input (hsplit : members = pre ++ m :: post) (ht : t ∈ m.inputs) :
    addrOf members t = addrOf pre t ∧ (addrOf pre t).1 ∉ madeBy (m :: post) := by
  have hnot := h.topological pre m post hsplit t ht
  constructor
  · rw [hsplit]
    exact addrOf_append_of_notMem fun hmem => hnot (mem_madeBy_of_mem_aliasOuts hmem)
  · rcases h.base_notMem hsplit t with heq | hbase
    · rwa [heq]
    · exact hbase

/-- The tensors of a view or a chunk are as far from the base as the input, and the offset. -/
theorem IrMembers.addrOf_alias (hm : m ∈ members) (halias : m.isAlias = true)
    (hsrc : m.inputs.head? = some src) (hoffsets : aliasOffsets m = .ok offsets) {k : ℤ}
    (ht : (t, k) ∈ offsets) :
    addrOf members t = ((addrOf members src).1, (addrOf members src).2 + k) := by
  obtain ⟨pre, post, hsplit⟩ := append_of_mem hm
  have hkeys := h.map_fst_offsets hm halias hoffsets
  have hmade : t ∈ m.made := by
    apply RegionOp.mem_made_of_mem_outputs
    rw [← hkeys]
    exact mem_map_of_mem ht
  have hnodup : (offsets.map Prod.fst).Nodup := by
    rw [hkeys]
    exact (nodup_append.mp (h.nodup_made hm)).1
  have hlookup : offsets.lookup t = some k :=
    (⟨offsets, hnodup⟩ : PyDict String ℤ).mem_items_iff.mp ht
  rw [(h.addrOf_input hsplit (mem_of_mem_head? hsrc)).1, hsplit, append_cons]
  rw [addrOf_append_of_notMem fun hmem =>
    (h.notMem_of_made hsplit hmade).2 (mem_madeBy_of_mem_aliasOuts hmem)]
  rw [addrOf_append_single, addrStep_of_alias halias hsrc hoffsets, hlookup]
  rfl

theorem Chain.addrOf_eq {b : String} {off : ℤ} (hchain : Chain members t b off) :
    addrOf members t = (b, off) := by
  induction hchain with
  | base hnot => exact addrOf_of_notMem hnot
  | step hm halias hsrc hoffsets ht _ ih => rw [h.addrOf_alias hm halias hsrc hoffsets ht, ih]

end

/-! ### Producers -/

/-- A member that makes a tensor, and is not a view or a chunk. -/
def RegionOp.makes (m : RegionOp) (t : String) : Bool := !m.isAlias && Decidable.decide (t ∈ m.made)

theorem RegionOp.makes_iff : m.makes t = true ↔ m.isAlias = false ∧ t ∈ m.made := by
  simp [RegionOp.makes]

/-- The number of the first member that makes a tensor. -/
def makerOf (members : List RegionOp) (t : String) : Option ℕ := members.findIdx? (·.makes t)

theorem makerOf_append_single (pre : List RegionOp) (m : RegionOp) (t : String) :
    makerOf (pre ++ [m]) t =
      (makerOf pre t).or (if m.makes t = true then some pre.length else none) := by
  cases hm : m.makes t <;> simp [makerOf, hm]

theorem makerOf_eq_none (h : t ∉ madeBy pre) : makerOf pre t = none := by
  rw [makerOf, findIdx?_eq_none_iff]
  intro m hm
  rw [Bool.eq_false_iff]
  exact fun hmakes => h (mem_madeBy_iff.mpr ⟨m, hm, (RegionOp.makes_iff.mp hmakes).2⟩)

/-- With one maker for each tensor, it is the one that is found. -/
theorem IrMembers.makerOf_eq (h : IrMembers env members) (hsplit : members = pre ++ m :: post)
    (hmakes : m.makes t = true) (rest : List RegionOp) :
    makerOf (pre ++ m :: rest) t = some pre.length := by
  rw [makerOf, findIdx?_append]
  have hnot := (h.notMem_of_made hsplit (RegionOp.makes_iff.mp hmakes).2).1
  have hpre := makerOf_eq_none hnot
  rw [makerOf] at hpre
  rw [hpre, findIdx?_cons, if_pos hmakes]
  simp

/-! ### Levels -/

theorem levelRun_append_single (pre : List RegionOp) (m : RegionOp) :
    levelRun (pre ++ [m]) = levelStep (levelRun pre) m := by
  rw [levelRun, foldl_append]
  rfl

theorem get?_foldl_set {ν : Type} (ts : List String) (v : ν) (d : PyDict String ν) (t : String) :
    (ts.foldl (fun d t => d.set t v) d).get? t = if t ∈ ts then some v else d.get? t := by
  induction ts using reverseRecOn with
  | nil => rfl
  | append_singleton ts u ih =>
    rw [foldl_append, foldl_cons, foldl_nil, PyDict.get?_set, ih]
    by_cases hu : t = u
    · simp [hu]
    · simp [hu]

/-- The level that a member gets. -/
def nextLevel (st : LevelState) (m : RegionOp) : ℤ :=
  if m.isAlias then -1 else 1 + topLevel st m.inputs

theorem lv_levelStep (st : LevelState) (m : RegionOp) :
    (levelStep st m).lv = st.lv ++ [nextLevel st m] := by
  rw [levelStep, nextLevel]
  split_ifs
  · cases m.inputs.head?.bind st.prod.get? <;> rfl
  · rfl

theorem length_lv_levelRun (pre : List RegionOp) : (levelRun pre).lv.length = pre.length := by
  induction pre using reverseRecOn with
  | nil => rfl
  | append_singleton pre m ih =>
    rw [levelRun_append_single, lv_levelStep, length_append, length_append, ih]
    rfl

theorem length_levels (members : List RegionOp) : (levels members).length = members.length :=
  length_lv_levelRun members

/-- Later members keep the levels of the earlier ones. -/
theorem lv_levelRun_append (pre post : List RegionOp) :
    ∃ later, (levelRun (pre ++ post)).lv = (levelRun pre).lv ++ later := by
  induction post using reverseRecOn with
  | nil => exact ⟨[], by simp⟩
  | append_singleton post m ih =>
    obtain ⟨later, hlater⟩ := ih
    refine ⟨later ++ [nextLevel (levelRun (pre ++ post)) m], ?_⟩
    rw [← append_assoc, levelRun_append_single, lv_levelStep, hlater, append_assoc]

/-- The level of a member is what its step found. -/
theorem levels_getElem? (pre post : List RegionOp) (m : RegionOp) :
    (levels (pre ++ m :: post))[pre.length]? = some (nextLevel (levelRun pre) m) := by
  obtain ⟨later, hlater⟩ := lv_levelRun_append (pre ++ [m]) post
  rw [levels, append_cons, hlater, levelRun_append_single, lv_levelStep, append_assoc,
    getElem?_append_right (le_of_eq (length_lv_levelRun pre)), length_lv_levelRun]
  simp

/-- Every view and every chunk has a base and offsets. -/
def Placed (members : List RegionOp) : Prop :=
  ∀ m ∈ members, m.isAlias = true →
    ∃ src offsets, m.inputs.head? = some src ∧ aliasOffsets m = .ok offsets

/-- `prod` knows the makers of the bases. -/
theorem IrMembers.get?_prod (h : IrMembers env members) (hplaced : Placed members)
    (hsplit : members = pre ++ post) (t : String) :
    (levelRun pre).prod.get? t = makerOf pre (addrOf pre t).1 := by
  induction pre using reverseRecOn generalizing post t with
  | nil => rfl
  | append_singleton pre m ih =>
    rw [append_assoc, singleton_append] at hsplit
    have hbefore : ∀ t, (levelRun pre).prod.get? t = makerOf pre (addrOf pre t).1 := ih hsplit
    have hm : m ∈ members := by
      rw [hsplit]
      exact mem_append_right _ mem_cons_self
    -- A tensor that is made now was unknown.
    have hfresh : ∀ {t}, t ∈ m.made → addrOf pre t = (t, 0) ∧ makerOf pre t = none := by
      intro t ht
      have hnot := (h.notMem_of_made hsplit ht).1
      exact ⟨addrOf_of_notMem fun hmem => hnot (mem_madeBy_of_mem_aliasOuts hmem),
        makerOf_eq_none hnot⟩
    rw [levelRun_append_single, addrOf_append_single, makerOf_append_single, levelStep]
    cases halias : m.isAlias with
    | false =>
      have hmakes : ∀ b, m.makes b = true ↔ b ∈ m.made := fun b => by
        rw [RegionOp.makes_iff, halias]
        simp
      rw [addrStep_of_not_alias halias, if_neg Bool.false_ne_true]
      show PyDict.get? ((m.outputs ++ m.internal).foldl _ _) t = _
      rw [get?_foldl_set, hbefore, length_lv_levelRun]
      by_cases ht : t ∈ m.made
      · rw [if_pos (show t ∈ m.outputs ++ m.internal from ht), (hfresh ht).1, (hfresh ht).2,
          if_pos ((hmakes t).mpr ht)]
        rfl
      · have hbase : (addrOf pre t).1 ∉ m.made := by
          rcases h.base_notMem hsplit t with heq | hnot
          · rwa [heq]
          · exact fun hmem => hnot (by
              exact mem_append_left _ hmem)
        rw [if_neg (show t ∉ m.outputs ++ m.internal from ht),
          if_neg (fun hmem => hbase ((hmakes _).mp hmem)), Option.or_none]
    | true =>
      have hmakes : ∀ b, ¬m.makes b = true := fun b hb => by
        rw [RegionOp.makes_iff, halias] at hb
        exact Bool.noConfusion hb.1
      rw [if_pos rfl, if_neg (hmakes _), Option.or_none]
      obtain ⟨src, offsets, hsrc, hoffsets⟩ := hplaced m hm halias
      have hkeys := h.map_fst_offsets hm halias hoffsets
      rw [addrStep_of_alias halias hsrc hoffsets, hsrc, Option.bind_some, hbefore src]
      by_cases ht : t ∈ m.outputs
      · -- The outputs have the producer of the input.
        obtain ⟨k, hk⟩ : ∃ k, offsets.lookup t = some k := by
          rw [← Option.isSome_iff_exists, lookup_isSome_iff]
          obtain ⟨p, hp, rfl⟩ := mem_map.mp (hkeys ▸ ht)
          exact ⟨p, hp, beq_self_eq_true p.1⟩
        rw [hk]
        show _ = makerOf pre (addrOf pre src).1
        have hnone : (levelRun pre).prod.get? t = none := by
          obtain ⟨haddr, hmaker⟩ := hfresh (RegionOp.mem_made_of_mem_outputs ht)
          rw [hbefore, haddr, hmaker]
        cases makerOf pre (addrOf pre src).1 with
        | none => exact hnone
        | some p =>
          show PyDict.get? (m.outputs.foldl _ _) t = _
          rw [get?_foldl_set, if_pos ht]
      · rw [lookup_eq_none_of_notMem (by rwa [hkeys])]
        show _ = makerOf pre (addrOf pre t).1
        rw [← hbefore t]
        cases makerOf pre (addrOf pre src).1 with
        | none => rfl
        | some p =>
          show PyDict.get? (m.outputs.foldl _ _) t = _
          rw [get?_foldl_set, if_neg ht]

theorem foldl_max_ge (l : List ℤ) (b : ℤ) :
    b ≤ l.foldl max b ∧ ∀ x ∈ l, x ≤ l.foldl max b := by
  induction l generalizing b with
  | nil => exact ⟨le_refl b, fun x hx => absurd hx not_mem_nil⟩
  | cons a l ih =>
    obtain ⟨hbase, hall⟩ := ih (max b a)
    refine ⟨le_trans (le_max_left b a) hbase, fun x hx => ?_⟩
    rcases mem_cons.mp hx with rfl | hmem
    · exact le_trans (le_max_right b x) hbase
    · exact hall x hmem

/-- A member depends on another: it reads a tensor with a base that the other makes. -/
def DependsOn (members : List RegionOp) (i j : ℕ) : Prop :=
  ∃ m m' t, members[i]? = some m ∧ members[j]? = some m' ∧ m.isAlias = false ∧ t ∈ m.inputs ∧
    m'.makes (addrOf members t).1 = true

/-- What a member depends on comes before it. -/
theorem IrMembers.lt_of_dependsOn (h : IrMembers env members) (hdep : DependsOn members i j) :
    j < i := by
  obtain ⟨m, m', t, hm, hm', -, ht, hmakes⟩ := hdep
  obtain ⟨pre, post, hsplit, rfl⟩ := PyList.exists_append_of_getElem? hm
  obtain ⟨haddr, hbase⟩ := h.addrOf_input hsplit ht
  rw [← haddr] at hbase
  by_contra hge
  refine hbase (mem_madeBy_iff.mpr ⟨m', ?_, (RegionOp.makes_iff.mp hmakes).2⟩)
  rw [hsplit, getElem?_append_right (Nat.le_of_not_lt hge)] at hm'
  exact mem_of_getElem? hm'

/-- The level of a member is greater than those of the members that it depends on. -/
theorem IrMembers.level_lt (h : IrMembers env members) (hplaced : Placed members)
    (hdep : DependsOn members i j) {li lj : ℤ} (hi : (levels members)[i]? = some li)
    (hj : (levels members)[j]? = some lj) : lj < li := by
  have hlt := h.lt_of_dependsOn hdep
  obtain ⟨m, m', t, hm, hm', halias, ht, hmakes⟩ := hdep
  obtain ⟨pre, post, hsplit, rfl⟩ := PyList.exists_append_of_getElem? hm
  -- `prod` has the member that makes the base.
  have hpred : (levelRun pre).prod.get? t = some j := by
    rw [h.get?_prod hplaced hsplit, ← (h.addrOf_input hsplit ht).1]
    rw [hsplit, getElem?_append_left hlt] at hm'
    obtain ⟨before, between, hpre, rfl⟩ := PyList.exists_append_of_getElem? hm'
    have hsplit' : members = before ++ m' :: (between ++ m :: post) := by
      rw [hsplit, hpre, append_assoc, cons_append]
    rw [hpre]
    exact h.makerOf_eq hsplit' hmakes between
  have hlevel : (levelRun pre).lv.getD j (-1) = lj := by
    obtain ⟨later, hlater⟩ := lv_levelRun_append pre (m :: post)
    rw [levels, hsplit, hlater, getElem?_append_left (by rwa [length_lv_levelRun])] at hj
    rw [getD_eq_getElem?_getD, hj]
    rfl
  rw [hsplit, levels_getElem?, nextLevel, halias, if_neg Bool.false_ne_true] at hi
  rw [← Option.some.inj hi, ← hlevel]
  have htop : (levelRun pre).lv.getD j (-1) ≤ topLevel (levelRun pre) m.inputs := by
    apply (foldl_max_ge _ _).2
    rw [mem_filterMap]
    exact ⟨t, ht, by rw [hpred]; rfl⟩
  omega

end

end ModelBlaster.RegionSlots
