import ModelBlaster.Regions.SeedPointers

/-!
# Soundness of region seeds

A seed runs the members of a region level by level. If the parameters of the region can be told
apart, then what a member depends on has run before it, and the members of a level have nothing to
do with one another: whatever their order or mixture, the memory is left as by the members in the
order of the graph.

## Main definitions

* `StaysWithin`: kernels touch the buffers that they are given only;
* `SeedSound`: what is asked of a seed.

## Main results

* `seedSound_iff_namesDistinct`: when a seed is sound.
-/

namespace ModelBlaster.RegionSlots

open GraphPrune RegionWindows StraightLine List

/-- The kernels of the members, as programs over the elements of buffers. -/
abbrev Kernels (V : Type) := ℕ → List (ArgKind × Passed) → List (Instr (SeedBuffer × ℤ) V)

/-- A kernel reads what its pointers point into, and writes what its outputs and scratch pointers
point into. -/
structure StaysWithin {V : Type} (K : Kernels V) : Prop where
  reads : ∀ i passed, ∀ x ∈ K i passed, ∀ c ∈ x.reads, ∃ p ∈ passed, ∃ off, p.2 = .ptr c.1 off
  writes : ∀ i passed, ∀ x ∈ K i passed, ∀ c ∈ x.writes, ∃ p ∈ passed,
    (p.1 = .output ∨ p.1 = .scratch) ∧ ∃ off, p.2 = .ptr c.1 off

/-- What the arguments of a member mean in the graph. -/
def irArgs (env : SeedEnv) (members : List RegionOp) (i : ℕ) : List (ArgKind × Passed) :=
  ((members[i]?.bind env.args).getD []).map fun a => (a.kind, meaning members a)

/-- The members in the order of the graph. -/
def irProgram {V : Type} (K : Kernels V) (env : SeedEnv) (members : List RegionOp) :
    List (Instr (SeedBuffer × ℤ) V) :=
  (callIndices members).flatMap fun i => K i (irArgs env members i)

/-- What the arguments of a call are evaluated to. -/
def evalCall (params : List RegionParam) (c : SeedCall) : Option (List (ArgKind × Passed)) :=
  c.args.mapM fun p => (evalArg params p.2).map (Prod.mk p.1)

/-- What a call runs. -/
def callProgram {V : Type} (K : Kernels V) (params : List RegionParam) (c : SeedCall) :
    List (Instr (SeedBuffer × ℤ) V) :=
  K c.member ((evalCall params c).getD [])

/-- The parameter that a pointer expression starts from. -/
def PtrExpr.root : PtrExpr → Option String
  | .param name => some name
  | .missing => none
  | .add e _ => e.root

/-- The parameters that a call writes. -/
def SeedCall.writes (c : SeedCall) : List String :=
  c.args.filterMap fun p =>
    match p with
    | (.output, .ptr e) => e.root
    | (.scratch, .ptr e) => e.root
    | _ => none

/-- What is asked of a seed. -/
structure SeedSound (env : SeedEnv) (members : List RegionOp) (params : List RegionParam)
    (seed : RegionSeed) : Prop where
  /-- The level of a member is greater than the levels of those that make what it reads. -/
  order : ∀ (i j : ℕ) (m m' : RegionOp) (t b : String) (off li lj : ℤ), members[i]? = some m →
    m.isAlias = false → t ∈ m.inputs → Chain members t b off → members[j]? = some m' →
    m'.makes b = true → (levels members)[i]? = some li → (levels members)[j]? = some lj → lj < li
  /-- No two members of a level write one parameter. -/
  writes : ∀ group ∈ seed.groups, group.Pairwise fun c d => ∀ name ∈ c.writes, name ∉ d.writes
  /-- The expressions of views and chunks are the base, and the sum of the offsets. -/
  aliases : ∀ t ∈ aliasOuts members, ∀ b off, Chain members t b off →
    ∃ e, seed.aliases.get? t = some e ∧ evalPtr params e = some (.tensor b, off)
  /-- The arguments of a call are what they mean in the graph. -/
  args : ∀ group ∈ seed.groups, ∀ c ∈ group, evalCall params c = some (irArgs env members c.member)
  /-- However the members of the levels are mixed, they compute what they do in their order. -/
  runs : ∀ (V : Type) (K : Kernels V), StaysWithin K → ∀ events,
    GroupRun (callProgram K params) seed.groups events → ∀ σ,
      run (events.map (taskStep (callProgram K params))) σ = run (irProgram K env members) σ

/-! ### Levels of calls -/

section
variable {calls : List (ℤ × SeedCall)}

theorem mem_byLevel {g : List SeedCall} (h : g ∈ byLevel calls) :
    ∃ level, ∀ c ∈ g, (level, c) ∈ calls := by
  obtain ⟨level, -, rfl⟩ := mem_map.mp h
  refine ⟨level, fun c hc => ?_⟩
  obtain ⟨p, hp, rfl⟩ := mem_map.mp hc
  obtain ⟨hmem, hlevel⟩ := mem_filter.mp hp
  rwa [← of_decide_eq_true hlevel]

/-- The levels come in their order. -/
theorem pairwise_byLevel (calls : List (ℤ × SeedCall)) : (byLevel calls).Pairwise fun g g' =>
    ∀ c ∈ g, ∀ d ∈ g', ∃ lc ld, lc < ld ∧ (lc, c) ∈ calls ∧ (ld, d) ∈ calls := by
  rw [byLevel, pairwise_map]
  refine (PyList.pairwise_sortedSet _).imp fun {l l'} hlt c hc d hd => ?_
  obtain ⟨p, hp, rfl⟩ := mem_map.mp hc
  obtain ⟨q, hq, rfl⟩ := mem_map.mp hd
  obtain ⟨hp, hl⟩ := mem_filter.mp hp
  obtain ⟨hq, hl'⟩ := mem_filter.mp hq
  refine ⟨p.1, q.1, ?_, hp, hq⟩
  rwa [of_decide_eq_true hl, of_decide_eq_true hl']

/-- Every call is at its level. -/
theorem perm_flatten_byLevel (calls : List (ℤ × SeedCall)) :
    (byLevel calls).flatten.Perm (calls.map Prod.snd) := by
  have hnodup : (PyList.sortedSet (calls.map Prod.fst)).Nodup :=
    (PyList.pairwise_sortedSet _).imp fun h => h.ne
  have hperm := PyList.perm_flatMap_filter Prod.fst hnodup
    fun c hc => PyList.mem_sortedSet.mpr (@List.mem_map_of_mem _ _ calls c Prod.fst hc)
  have hmap := hperm.map Prod.snd
  rwa [map_flatMap, flatMap_def] at hmap

end

/-! ### Calls -/

section
variable {env : SeedEnv} {members : List RegionOp} {params : List RegionParam} {st : SeedState}
  {outputs internal : List String}

variable {args : List RegionArg} {pname : PyDict String String} {aliases : PyDict String PtrExpr}
  {c : SeedCall}

/-- The arguments of a call are those of the member, if they are evaluated right. -/
theorem evalCall_of_mapM (hargs : args.mapM (seedArg pname aliases) = .ok c.args)
    (heval : ∀ a ∈ args, ∀ s, seedArg pname aliases a = .ok s → s.1 = a.kind ∧ evalArg params s.2 = some (meaning members a))
    :
    evalCall params c = some (args.map fun a => (a.kind, meaning members a)) := by
  rw [Fallible.mapM_eq_ok_iff] at hargs
  rw [evalCall]
  generalize c.args = passed at hargs
  induction hargs with
  | nil => rfl
  | @cons a s args passed hs hrest ih =>
    obtain ⟨hkind, hmeaning⟩ := heval a mem_cons_self s hs
    rw [mapM_cons, hmeaning, ih fun b hb => heval b (mem_cons_of_mem a hb), hkind]
    rfl

/-- The arguments of the calls are what they mean in the graph. -/
theorem IsSeed.evalCall_eq (hir : IrMembers env members)
    (h : IsSeed env (paramNames params) (levels members) members st)
    (hnamed : Named env.toRegionEnv members params) {c : ℤ × SeedCall} (hc : c ∈ st.calls) :
    evalCall params c.2 = some (irArgs env members c.2.member) := by
  obtain ⟨m, args, hm, halias, -, hargs, hpassed⟩ := h.calls c hc
  rw [irArgs, hm, Option.bind_some, hargs]
  apply evalCall_of_mapM hpassed
  intro a ha s hs
  exact h.evalArg_eq hir hnamed
    ((mem_allArgs _).mpr ⟨m, mem_of_getElem? hm, halias, args, hargs, ha⟩) hs

/-! ### Members that have nothing to do with one another -/

variable {m : RegionOp} {t : String}

theorem IrMembers.made_notMem_aliasOuts (hir : IrMembers env members) (hm : m ∈ members)
    (halias : m.isAlias = false) (ht : t ∈ m.made) : t ∉ aliasOuts members := by
  intro hmem
  obtain ⟨pre, post, hsplit⟩ := append_of_mem hm
  obtain ⟨hpre, hpost⟩ := hir.notMem_of_made hsplit ht
  rw [hsplit, aliasOuts_append, mem_append, ← singleton_append, aliasOuts_append,
    mem_append] at hmem
  rcases hmem with hmem | hmem | hmem
  · exact hpre (mem_madeBy_of_mem_aliasOuts hmem)
  · obtain ⟨m', hm', halias', -⟩ := mem_aliasOuts.mp hmem
    rw [mem_singleton.mp hm', halias] at halias'
    cases halias'
  · exact hpost (mem_madeBy_of_mem_aliasOuts hmem)

variable {V : Type} {off : ℤ} {b : SeedBuffer}

/-- A tensor has one maker. -/
theorem IrMembers.index_unique (hir : IrMembers env members) {i j : ℕ} {m' : RegionOp}
    (hm : members[i]? = some m) (hm' : members[j]? = some m') (ht : t ∈ m.made) (ht' : t ∈ m'.made) :
    i = j := by
  obtain ⟨pre, post, hsplit, rfl⟩ := PyList.exists_append_of_getElem? hm
  obtain ⟨hpre, hpost⟩ := hir.notMem_of_made hsplit ht
  rcases Nat.lt_trichotomy pre.length j with hlt | heq | hlt
  · rw [hsplit, append_cons, getElem?_append_right
      (by rwa [length_append, length_singleton])] at hm'
    exact absurd (mem_madeBy_iff.mpr ⟨m', mem_of_getElem? hm', ht'⟩) hpost
  · exact heq
  · rw [hsplit, getElem?_append_left hlt] at hm'
    exact absurd (mem_madeBy_iff.mpr ⟨m', mem_of_getElem? hm', ht'⟩) hpre

/-- The arguments of a member are bound. -/
structure Bound (env : SeedEnv) (members : List RegionOp) (i : ℕ) (m : RegionOp)
    (args : List RegionArg) : Prop where
  member : members[i]? = some m
  not_alias : m.isAlias = false
  args : env.args m = some args

theorem Bound.irArgs_eq {i : ℕ} (h : Bound env members i m args) :
    irArgs env members i = args.map fun a => (a.kind, meaning members a) := by
  rw [irArgs, h.member, Option.bind_some, h.args]
  rfl

section
variable {V : Type} {K : Kernels V} {i j : ℕ} {m m' : RegionOp} {args args' : List RegionArg}
  {x y : Instr (SeedBuffer × ℤ) V} {c : SeedBuffer × ℤ}

section
variable (hir : IrMembers env members) (hK : StaysWithin K) (h : Bound env members i m args)
include hir hK h

/-- A member writes what it makes. -/
theorem Bound.writes (hx : x ∈ K i (irArgs env members i)) (hc : c ∈ x.writes) :
    ∃ t ∈ m.made, c.1 = .tensor t := by
  obtain ⟨p, hp, hkind, off, hptr⟩ := hK.writes i _ x hx c hc
  rw [h.irArgs_eq] at hp
  obtain ⟨a, ha, rfl⟩ := mem_map.mp hp
  have hm := mem_of_getElem? h.member
  have hmade := (hir.args m hm h.not_alias args h.args).writes a ha hkind
  have htensor : a.isTensor = true := by
    rcases hkind with hkind | hkind <;> simp [RegionArg.isTensor, show a.kind = _ from hkind]
  have hmeaning : meaning members a = .ptr c.1 off := hptr
  rw [meaning_tensor htensor,
    addrOf_of_notMem (hir.made_notMem_aliasOuts hm h.not_alias hmade)] at hmeaning
  exact ⟨a.value, hmade, (Passed.ptr.inj hmeaning).1.symm⟩

/-- A member reads weights, what it makes, and what its inputs are places in. -/
theorem Bound.reads (hx : x ∈ K i (irArgs env members i)) (hc : c ∈ x.reads) :
    (∃ w, c.1 = .weight w) ∨
      ∃ t, (t ∈ m.inputs ∨ t ∈ m.made) ∧ c.1 = .tensor (addrOf members t).1 := by
  obtain ⟨p, hp, off, hptr⟩ := hK.reads i _ x hx c hc
  rw [h.irArgs_eq] at hp
  obtain ⟨a, ha, rfl⟩ := mem_map.mp hp
  have hm := mem_of_getElem? h.member
  have hmeaning : meaning members a = .ptr c.1 off := hptr
  by_cases htensor : a.isTensor = true
  · right
    rw [meaning_tensor htensor] at hmeaning
    exact ⟨a.value, (hir.args m hm h.not_alias args h.args).tensor ha htensor,
      (Passed.ptr.inj hmeaning).1.symm⟩
  · left
    rw [meaning] at hmeaning
    cases hkind : a.kind <;> rw [hkind] at hmeaning <;>
      simp [RegionArg.isTensor, hkind] at htensor
    · exact ⟨a.value, (Passed.ptr.inj hmeaning).1.symm⟩
    · cases hmeaning
    · cases hmeaning

/-- What a member reads is not written by another, unless it depends on it. -/
theorem Bound.notMem_writes (h' : Bound env members j m' args') (hne : i ≠ j)
    (hdep : ¬DependsOn members i j) (hx : x ∈ K i (irArgs env members i))
    (hy : y ∈ K j (irArgs env members j)) (hc : c ∈ x.reads) : c ∉ y.writes := by
  intro hc'
  obtain ⟨t', ht', hcell'⟩ := h'.writes hir hK hy hc'
  rcases h.reads hir hK hx hc with ⟨w, hcell⟩ | ⟨t, ht, hcell⟩
  · rw [hcell] at hcell'
    cases hcell'
  · rw [hcell] at hcell'
    have hbase : (addrOf members t).1 = t' := SeedBuffer.tensor.inj hcell'
    rcases ht with hin | hmade
    · apply hdep
      refine ⟨m, m', t, h.member, h'.member, h.not_alias, hin, ?_⟩
      rw [hbase, RegionOp.makes_iff]
      exact ⟨h'.not_alias, ht'⟩
    · rw [addrOf_of_notMem (hir.made_notMem_aliasOuts (mem_of_getElem? h.member) h.not_alias
        hmade)] at hbase
      obtain rfl : t = t' := hbase
      exact hne (hir.index_unique h.member h'.member hmade ht')

/-- Members that do not depend on each other are independent. -/
theorem Bound.independent (h' : Bound env members j m' args') (hne : i ≠ j)
    (hdep : ¬DependsOn members i j) (hdep' : ¬DependsOn members j i)
    (hx : x ∈ K i (irArgs env members i)) (hy : y ∈ K j (irArgs env members j)) :
    Independent x y where
  left := fun c hc => h.notMem_writes hir hK h' hne hdep hx hy hc
  right := fun c hc => h'.notMem_writes hir hK h hne.symm hdep' hy hx hc
  writes := by
    intro c hc hc'
    obtain ⟨t, ht, hcell⟩ := h.writes hir hK hx hc
    obtain ⟨t', ht', hcell'⟩ := h'.writes hir hK hy hc'
    rw [hcell] at hcell'
    obtain rfl : t = t' := SeedBuffer.tensor.inj hcell'
    exact hne (hir.index_unique h.member h'.member ht ht')

end

end

theorem IsSeed.bound (h : IsSeed env (paramNames params) (levels members) members st)
    {c : ℤ × SeedCall} (hc : c ∈ st.calls) : ∃ m args, Bound env members c.2.member m args := by
  obtain ⟨m, args, hm, halias, -, hargs, -⟩ := h.calls c hc
  exact ⟨m, args, hm, halias, hargs⟩

/-! ### Runs -/

theorem pairwise_callIndices (members : List RegionOp) :
    (callIndices members).Pairwise (· < ·) := by
  have hsub : (callIndices members).Sublist (members.zipIdx.map Prod.snd) :=
    filter_sublist.map Prod.snd
  rw [zipIdx_map_snd] at hsub
  exact (pairwise_lt_range' 1).sublist hsub

section
variable (h : IsSeed env (paramNames params) (levels members) members st)
include h

/-- Calls are given by their members. -/
theorem IsSeed.pairwise_calls :
    (st.calls.map Prod.snd).Pairwise fun c d => c.member < d.member := by
  have hsorted := pairwise_callIndices members
  rw [← h.members, pairwise_map] at hsorted
  rwa [pairwise_map]

theorem IsSeed.member_inj {d : SeedCall} (hc : c ∈ st.calls.map Prod.snd)
    (hd : d ∈ st.calls.map Prod.snd) (heq : c.member = d.member) : c = d := by
  have hnodup : ((st.calls.map Prod.snd).map SeedCall.member).Nodup := by
    rw [List.Nodup, pairwise_map]
    exact h.pairwise_calls.imp fun hlt => hlt.ne
  exact inj_on_of_nodup_map hnodup hc hd heq

end

section
variable (hir : IrMembers env members)
  (h : IsSeed env (paramNames params) (levels members) members st)
include hir h

/-- The level of a call is that of its member. -/
theorem IsSeed.level_lt {c d : ℤ × SeedCall} (hc : c ∈ st.calls) (hd : d ∈ st.calls)
    (hdep : DependsOn members c.2.member d.2.member) :
    d.1 < c.1 := by
  obtain ⟨-, -, -, -, hlc, -, -⟩ := h.calls c hc
  obtain ⟨-, -, -, -, hld, -, -⟩ := h.calls d hd
  exact hir.level_lt h.placed hdep hlc hld

/-- What a call runs is what its member runs. -/
theorem IsSeed.flatMap_callProgram (hnamed : Named env.toRegionEnv members params) (K : Kernels V) :
    (st.calls.map Prod.snd).flatMap (callProgram K params) = irProgram K env members := by
  rw [irProgram, ← h.members, flatMap_map, flatMap_map]
  apply flatMap_congr
  intro c hc
  rw [callProgram, h.evalCall_eq hir hnamed hc]
  rfl

/-- However the calls of the levels are mixed, the memory is left as by the members in their
order. -/
theorem IsSeed.run_eq (hnamed : Named env.toRegionEnv members params) {K : Kernels V}
    (hK : StaysWithin K) {events : List (SeedCall × ℕ)}
    (hrun : GroupRun (callProgram K params) (byLevel st.calls) events) (σ : SeedBuffer × ℤ → V) :
    run (events.map (taskStep (callProgram K params))) σ = run (irProgram K env members) σ := by
  let before : SeedCall → SeedCall → Prop := fun c d => DependsOn members d.member c.member
  -- A call waits for calls of smaller levels only.
  have hoverlap : Overlap (callProgram K params) before (byLevel st.calls).flatten events := by
    apply hrun.overlap
    · refine (pairwise_byLevel st.calls).imp fun {g g'} hlt c hc d hd => ?_
      obtain ⟨lc, ld, hlt, hcmem, hdmem⟩ := hlt c hc d hd
      constructor
      · rintro rfl
        obtain ⟨-, -, -, -, hlc, -, -⟩ := h.calls _ hcmem
        obtain ⟨-, -, -, -, hld, -, -⟩ := h.calls _ hdmem
        have heq : lc = ld := Option.some.inj (hlc.symm.trans hld)
        omega
      · intro hdep
        have hgt : ld < lc := h.level_lt hir hcmem hdmem hdep
        omega
    · intro g hg c hc d hd hdep
      obtain ⟨level, hlevel⟩ := mem_byLevel hg
      exact lt_irrefl level (h.level_lt hir (hlevel d hd) (hlevel c hc) hdep)
  have hsorted := h.pairwise_calls
  have hrun' := (hoverlap.of_perm (perm_flatten_byLevel st.calls)).run_eq
    (hsorted.imp fun hlt heq => by rw [heq] at hlt; exact lt_irrefl _ hlt) ?_ ?_ ?_ σ
  · rw [hrun', h.flatMap_callProgram hir hnamed]
  · intro c _ hdep
    exact lt_irrefl _ (hir.lt_of_dependsOn hdep)
  · exact hsorted.imp fun hlt hdep => lt_asymm hlt (hir.lt_of_dependsOn hdep)
  · intro c hc d hd hne hdep hdep' x hx y hy
    obtain ⟨p, hp, rfl⟩ := mem_map.mp hc
    obtain ⟨q, hq, rfl⟩ := mem_map.mp hd
    obtain ⟨m, args, hm⟩ := h.bound hp
    obtain ⟨m', args', hm'⟩ := h.bound hq
    rw [callProgram, h.evalCall_eq hir hnamed hp] at hx
    rw [callProgram, h.evalCall_eq hir hnamed hq] at hy
    have hindex : p.2.member ≠ q.2.member := fun heq => hne (h.member_inj hc hd heq)
    exact hm.independent hir hK hm' hindex hdep' hdep hx hy

end

/-! ### Writers -/

variable {name : String}

theorem mem_writes : name ∈ c.writes ↔
    ∃ kind e, (kind, SeedArg.ptr e) ∈ c.args ∧ (kind = .output ∨ kind = .scratch) ∧
      e.root = some name := by
  rw [SeedCall.writes, mem_filterMap]
  constructor
  · rintro ⟨⟨kind, s⟩, hp, hroot⟩
    cases kind <;> cases s <;> simp at hroot
    · exact ⟨.output, _, hp, .inl rfl, hroot⟩
    · exact ⟨.scratch, _, hp, .inr rfl, hroot⟩
  · rintro ⟨kind, e, hp, rfl | rfl, hroot⟩
    · exact ⟨_, hp, hroot⟩
    · exact ⟨_, hp, hroot⟩

variable {a : RegionArg}

theorem seedArg_kind {s : ArgKind × SeedArg} (h : seedArg pname aliases a = .ok s) :
    s.1 = a.kind := by
  by_cases htensor : a.isTensor = true
  · obtain ⟨e, -, rfl⟩ := (seedArg_tensor htensor).mp h
    rfl
  · cases hkind : a.kind with
    | weight =>
      obtain ⟨name, -, rfl⟩ := (seedArg_weight hkind).mp h
      exact hkind
    | null =>
      rw [seedArg, hkind] at h
      cases h
      rfl
    | scalar =>
      rw [seedArg, hkind] at h
      cases h
      rfl
    | input => exact absurd (by simp [RegionArg.isTensor, hkind]) htensor
    | output => exact absurd (by simp [RegionArg.isTensor, hkind]) htensor
    | scratch => exact absurd (by simp [RegionArg.isTensor, hkind]) htensor

section
variable (hir : IrMembers env members)
  (h : IsSeed env (paramNames params) (levels members) members st)
  (hnamed : Named env.toRegionEnv members params)
include hir h hnamed

/-- A call writes the parameters of tensors that its member makes. -/
theorem IsSeed.of_mem_writes {c : ℤ × SeedCall} (hc : c ∈ st.calls) (hname : name ∈ c.2.writes) :
    ∃ m t, members[c.2.member]? = some m ∧ t ∈ m.made ∧
      entryBuffer params name = some (.tensor t) := by
  obtain ⟨m, args, hm, halias, -, hargs, hpassed⟩ := h.calls c hc
  have hmem := mem_of_getElem? hm
  obtain ⟨kind, e, hp, hkind, hroot⟩ := mem_writes.mp hname
  obtain ⟨a, ha, hs⟩ := Fallible.exists_of_mem_mapM hpassed hp
  have hakind : a.kind = .output ∨ a.kind = .scratch := by
    rwa [← seedArg_kind hs]
  have htensor : a.isTensor = true := by
    rcases hakind with hk | hk <;> simp [RegionArg.isTensor, hk]
  have hmade := (hir.args m hmem halias args hargs).writes a ha hakind
  have hplain := hir.made_notMem_aliasOuts hmem halias hmade
  refine ⟨m, a.value, hm, hmade, ?_⟩
  obtain ⟨e', he', heq⟩ := (seedArg_tensor htensor).mp hs
  obtain ⟨name', hname', hbuffer⟩ := hnamed.tensors a.value (mem_passedTensors.mpr
    ⟨.inl ⟨a, (mem_allArgs _).mpr ⟨m, hmem, halias, args, hargs, ha⟩, htensor, rfl⟩, hplain⟩)
  -- The tensor is written as a parameter, not as an expression of a view or a chunk.
  rw [tensorExpr, h.plain _ hplain, hname'] at he'
  cases heq
  obtain rfl : PtrExpr.param name' = e := Option.some.inj he'
  rw [← Option.some.inj hroot]
  exact hbuffer

/-- No two calls of a level write one parameter. -/
theorem IsSeed.pairwise_writes {g : List SeedCall} (hg : g ∈ byLevel st.calls) :
    g.Pairwise fun c d => ∀ name ∈ c.writes, name ∉ d.writes := by
  have hsub : g.Sublist (st.calls.map Prod.snd) := by
    obtain ⟨level, -, rfl⟩ := mem_map.mp hg
    exact filter_sublist.map Prod.snd
  refine (List.Pairwise.and_mem.mp (h.pairwise_calls.sublist hsub)).imp ?_
  rintro c d ⟨hc, hd, hlt⟩ name hname hname'
  obtain ⟨p, hp, rfl⟩ := mem_map.mp (hsub.mem hc)
  obtain ⟨q, hq, rfl⟩ := mem_map.mp (hsub.mem hd)
  obtain ⟨m, t, hm, ht, hbuffer⟩ := h.of_mem_writes hir hnamed hp hname
  obtain ⟨m', t', hm', ht', hbuffer'⟩ := h.of_mem_writes hir hnamed hq hname'
  rw [hbuffer] at hbuffer'
  obtain rfl : t = t' := SeedBuffer.tensor.inj (Option.some.inj hbuffer')
  exact hlt.ne (hir.index_unique hm hm' ht ht')

end

/-! ### The condition -/

section
variable (hir : IrMembers env members)
include hir

theorem isSeed_of_regionSeed {seed : RegionSeed} (h : regionSeed env params members = .ok seed) :
    ∃ st, IsSeed env (paramNames params) (levels members) members st ∧
      seed = ⟨st.aliases, byLevel st.calls⟩ := by
  rw [regionSeed] at h
  cases hrun : seedRun env (paramNames params) members with
  | error e =>
    rw [hrun] at h
    cases h
  | ok st =>
    rw [hrun] at h
    cases h
    exact ⟨st, isSeed_of_seedRun hir hrun, rfl⟩

/-- What views and chunks make is written with a base. -/
theorem IsSeed.exists_alias (h : IsSeed env (paramNames params) (levels members) members st)
    (hm : m ∈ members) (halias : m.isAlias = true) (ht : t ∈ m.outputs) :
    ∃ src k, m.inputs.head? = some src ∧
      st.aliases.get? t = some (.add (baseExpr (paramNames params) st.aliases src) k) ∧
      ∀ b off, Chain members src b off → Chain members t b (off + k) := by
  obtain ⟨src, offsets, hhead, hoffsets⟩ := h.placed m hm halias
  have hkeys := hir.map_fst_offsets hm halias hoffsets
  obtain ⟨⟨u, k⟩, hmem, hfst⟩ := mem_map.mp (hkeys ▸ ht)
  obtain rfl : u = t := hfst
  exact ⟨src, k, hhead, h.aliases m hm halias src offsets hhead hoffsets u k hmem,
    fun b off hchain => .step hm halias hhead hoffsets hmem hchain⟩

theorem seedSound_of_named (h : IsSeed env (paramNames params) (levels members) members st)
    (hnamed : Named env.toRegionEnv members params) :
    SeedSound env members params ⟨st.aliases, byLevel st.calls⟩ := by
  constructor
  · intro i j m m' t b off li lj hm halias ht hchain hm' hmakes hli hlj
    refine hir.level_lt h.placed ⟨m, m', t, hm, hm', halias, ht, ?_⟩ hli hlj
    rwa [hchain.addrOf_eq hir]
  · exact fun g hg => h.pairwise_writes hir hnamed hg
  · intro t ht b off hchain
    obtain ⟨e, he, heval⟩ := h.points_alias hir hnamed ht
    rw [hchain.addrOf_eq hir] at heval
    obtain ⟨m, hm, halias, hout⟩ := mem_aliasOuts.mp ht
    obtain ⟨src, k, -, hget, -⟩ := h.exists_alias hir hm halias hout
    rw [tensorExpr, hget] at he
    exact ⟨e, hget.trans he, heval⟩
  · intro g hg c hc
    obtain ⟨level, hlevel⟩ := mem_byLevel hg
    exact h.evalCall_eq hir hnamed (hlevel c hc)
  · intro V K hK events hrun σ
    exact h.run_eq hir hnamed hK hrun σ

end

theorem evalPtr_param (h : evalPtr params (.param name) = some (b, off)) :
    entryBuffer params name = some b := by
  obtain ⟨b', hb', heq⟩ := Option.map_eq_some_iff.mp h
  rw [hb', (Prod.mk.inj heq).1]

theorem evalArg_ptr {e : PtrExpr} (h : evalArg params (.ptr e) = some (.ptr b off)) :
    evalPtr params e = some (b, off) := by
  obtain ⟨p, hp, heq⟩ := Option.map_eq_some_iff.mp h
  obtain ⟨hb, hoff⟩ := Passed.ptr.inj heq
  rw [hp, ← hb, ← hoff]

/-- Every member that is not a view or a chunk is called. -/
theorem IsSeed.exists_call (h : IsSeed env (paramNames params) (levels members) members st)
    (hm : m ∈ members) (halias : m.isAlias = false) :
    ∃ c ∈ st.calls, members[c.2.member]? = some m := by
  obtain ⟨i, hi⟩ := getElem?_of_mem hm
  have hindex : i ∈ callIndices members := by
    rw [callIndices, mem_map]
    exact ⟨(m, i), mem_filter.mpr ⟨mem_zipIdx_iff_getElem?.mpr hi, by simp [halias]⟩, rfl⟩
  rw [← h.members] at hindex
  obtain ⟨c, hc, rfl⟩ := mem_map.mp hindex
  exact ⟨c, hc, hi⟩

/-- Where a call is evaluated right, its arguments are. -/
theorem evalArg_of_evalCall (hargs : args.mapM (seedArg pname aliases) = .ok c.args)
    (heval : evalCall params c = some (args.map fun a => (a.kind, meaning members a)))
    (ha : a ∈ args) :
    ∃ s, seedArg pname aliases a = .ok s ∧ evalArg params s.2 = some (meaning members a) := by
  rw [Fallible.mapM_eq_ok_iff] at hargs
  rw [evalCall] at heval
  generalize c.args = passed at hargs heval
  induction hargs with
  | nil => exact absurd ha not_mem_nil
  | @cons b s args passed hs hrest ih =>
    rw [mapM_cons] at heval
    obtain ⟨p, hp, heval⟩ := Option.bind_eq_some_iff.mp heval
    obtain ⟨ps, hps, heval⟩ := Option.bind_eq_some_iff.mp heval
    cases heval
    rcases mem_cons.mp ha with rfl | ha
    · obtain ⟨q, hq, heq⟩ := Option.map_eq_some_iff.mp hp
      exact ⟨s, hs, hq.trans (congrArg some (Prod.mk.inj heq).2)⟩
    · exact ih ha hps

/-- A sound seed evaluates every argument to what it means. -/
theorem IsSeed.evalArg_of_sound (h : IsSeed env (paramNames params) (levels members) members st)
    (hsound : SeedSound env members params ⟨st.aliases, byLevel st.calls⟩)
    (ha : a ∈ allArgs env.toRegionEnv members) :
    ∃ s, seedArg (paramNames params) st.aliases a = .ok s ∧
      evalArg params s.2 = some (meaning members a) := by
  obtain ⟨m, hm, halias, args, hargs, ha⟩ := (mem_allArgs _).mp ha
  obtain ⟨c, hc, hget⟩ := h.exists_call hm halias
  obtain ⟨m', args', hm', -, -, hargs', hpassed⟩ := h.calls c hc
  obtain rfl : m = m' := Option.some.inj (hget.symm.trans hm')
  obtain rfl : args = args' := Option.some.inj (hargs.symm.trans hargs')
  obtain ⟨g, hg, hcg⟩ := mem_flatten.mp
    ((perm_flatten_byLevel st.calls).mem_iff.mpr (mem_map_of_mem hc))
  have heval := hsound.args g hg c.2 hcg
  rw [irArgs, hget, Option.bind_some, hargs] at heval
  exact evalArg_of_evalCall hpassed heval ha

/-- A sound seed finds what the region needs. -/
theorem named_of_seedSound (hir : IrMembers env members)
    (h : IsSeed env (paramNames params) (levels members) members st)
    (hsound : SeedSound env members params ⟨st.aliases, byLevel st.calls⟩) :
    Named env.toRegionEnv members params := by
  constructor
  · intro t ht
    obtain ⟨hneeded, hplain⟩ := mem_passedTensors.mp ht
    have hnone := h.plain t hplain
    rcases hneeded with ⟨a, ha, htensor, rfl⟩ | ⟨m, hm, halias, hhead⟩
    · obtain ⟨s, hs, heval⟩ := h.evalArg_of_sound hsound ha
      obtain ⟨e, he, rfl⟩ := (seedArg_tensor htensor).mp hs
      rw [tensorExpr, hnone, Option.none_or] at he
      obtain ⟨name, hname, rfl⟩ := Option.map_eq_some_iff.mp he
      refine ⟨name, hname, ?_⟩
      rw [meaning_tensor htensor, addrOf_of_notMem hplain] at heval
      exact evalPtr_param (evalArg_ptr heval)
    · -- The first output of the view or chunk is written with it.
      have hout : ∃ u, u ∈ m.outputs := by
        apply exists_mem_of_length_pos
        rw [hir.aliases m hm halias]
        split_ifs <;> omega
      obtain ⟨u, hu⟩ := hout
      obtain ⟨src, k, hsrc, hget, hchain⟩ := h.exists_alias hir hm halias hu
      obtain rfl : t = src := Option.some.inj (hhead.symm.trans hsrc)
      obtain ⟨e, he, heval⟩ := hsound.aliases u (mem_aliasOuts.mpr ⟨m, hm, halias, hu⟩) t (0 + k)
        (hchain t 0 (.base hplain))
      obtain rfl : PtrExpr.add (baseExpr (paramNames params) st.aliases t) k = e :=
        Option.some.inj (hget.symm.trans he)
      rw [evalPtr, baseExpr, hnone, Option.none_or] at heval
      cases hname : (paramNames params).get? t with
      | none =>
        rw [hname] at heval
        cases heval
      | some name =>
        rw [hname] at heval
        obtain ⟨⟨b, off⟩, hptr, heq⟩ := Option.map_eq_some_iff.mp heval
        obtain rfl : b = .tensor t := (Prod.mk.inj heq).1
        exact ⟨name, hname, evalPtr_param hptr⟩
  · intro w hw
    obtain ⟨a, ha, hkind, rfl⟩ := mem_passedWeights.mp hw
    obtain ⟨s, hs, heval⟩ := h.evalArg_of_sound hsound ha
    obtain ⟨name, hname, rfl⟩ := (seedArg_weight hkind).mp hs
    refine ⟨name, hname, ?_⟩
    rw [meaning, hkind] at heval
    exact evalPtr_param (evalArg_ptr heval)

/-- A seed is sound iff the parameters of the region can be told apart. -/
theorem seedSound_iff_namesDistinct (hir : IrMembers env members)
    (hparams : regionParams env.toRegionEnv members outputs internal = some params)
    {seed : RegionSeed} (hseed : regionSeed env params members = .ok seed) :
    SeedSound env members params seed ↔ NamesDistinct env.toRegionEnv members params := by
  obtain ⟨st, hst, rfl⟩ := isSeed_of_regionSeed hir hseed
  rw [← named_iff_namesDistinct hir hparams]
  constructor
  · exact named_of_seedSound hir hst
  · exact seedSound_of_named hir hst

end

/-! ### Examples -/

/-- An op that reads and writes whole tensors. -/
def pointwise (name src dst : String) : RegionOp :=
  ⟨name, "relu", [src], [dst], [], [], 0, none, none⟩

/-- A view of a tensor, from an offset on. -/
def viewOf (name src dst : String) (offset : ℤ) : RegionOp :=
  ⟨name, "view", [src], [dst], [], [], offset, none, none⟩

/-- Members whose arguments are their inputs and their outputs. -/
def pointwiseEnv : SeedEnv where
  serialKinds := []
  cap := 64
  moveDead := true
  kindOf := fun _ => "region__example"
  args := fun m => some (m.inputs.map (RegionArg.mk .input) ++ m.outputs.map (RegionArg.mk .output))
  hasSource := fun _ => true

theorem memberArgs_pointwiseEnv (m : RegionOp) (args : List RegionArg)
    (h : pointwiseEnv.args m = some args) : MemberArgs m args := by
  obtain rfl : m.inputs.map (RegionArg.mk .input) ++ m.outputs.map (RegionArg.mk .output) = args :=
    Option.some.inj h
  constructor
  · intro a ha hkind
    rcases mem_append.mp ha with hin | hout
    · obtain ⟨t, ht, rfl⟩ := mem_map.mp hin
      exact .inl ht
    · obtain ⟨t, -, rfl⟩ := mem_map.mp hout
      cases hkind
  · intro a ha hkind
    rcases mem_append.mp ha with hin | hout
    · obtain ⟨t, -, rfl⟩ := mem_map.mp hin
      rcases hkind with hkind | hkind <;> cases hkind
    · obtain ⟨t, ht, rfl⟩ := mem_map.mp hout
      exact RegionOp.mem_made_of_mem_outputs ht
  · intro t ht
    exact ⟨⟨.output, t⟩, mem_append_right _ (mem_map_of_mem ht), rfl, rfl⟩

/-- The first of some members reads nothing that they make. -/
def headFirst : List RegionOp → Bool
  | [] => true
  | m :: rest => m.inputs.all (· ∉ madeBy (m :: rest))

theorem irMembers_pointwiseEnv {members : List RegionOp} (hnodup : (madeBy members).Nodup)
    (htopological : members.tails.all headFirst = true)
    (haliases : ∀ m ∈ members, m.isAlias = true → m.outputs.length = if m.op = "view" then 1 else 2)
    :
    IrMembers pointwiseEnv members where
  nodup := hnodup
  topological := by
    intro pre m post hsplit t ht
    have htail := all_eq_true.mp htopological (m :: post) ((mem_tails _ _).mpr ⟨pre, hsplit.symm⟩)
    exact of_decide_eq_true (all_eq_true.mp htail t ht)
  aliases := haliases
  args := fun m _ _ args h => memberArgs_pointwiseEnv m args h

/-- Two ops whose outputs have one identifier. -/
def clashMembers : List RegionOp := [pointwise "first" "x" "y.1", pointwise "second" "x" "y_1"]

/-- The two outputs are given as parameters of one name, and both are written at one level. -/
theorem not_seedSound_clash : IrMembers pointwiseEnv clashMembers ∧ ∃ params seed,
    regionParams pointwiseEnv.toRegionEnv clashMembers ["y.1", "y_1"] [] = some params ∧
      regionSeed pointwiseEnv params clashMembers = .ok seed ∧
      ¬SeedSound pointwiseEnv clashMembers params seed := by
  have hseed : regionSeed pointwiseEnv
      [⟨.input, "x"⟩, ⟨.output, "y.1"⟩, ⟨.output, "y_1"⟩] clashMembers = .ok ⟨PyDict.empty,
          [[⟨0, [(.input, .ptr (.param "in_x")), (.output, .ptr (.param "out_y_1"))]⟩,
            ⟨1, [(.input, .ptr (.param "in_x")), (.output, .ptr (.param "out_y_1"))]⟩]]⟩ := rfl
  refine ⟨irMembers_pointwiseEnv (by decide) (by decide) (by decide), _, _, by decide, hseed, ?_⟩
  intro hsound
  have hwrites := rel_of_pairwise_cons (hsound.writes _ mem_cons_self) mem_cons_self
  exact hwrites "out_y_1" (by decide) (by decide)

/-- A view, a reader of it, and a reader of what that makes. -/
def viewMembers : List RegionOp :=
  [viewOf "half" "h" "h1" 8, viewOf "quarter" "h1" "h2" 4, pointwise "first" "h2" "y",
    pointwise "second" "y" "z"]

theorem seedSound_view : ∃ params seed,
    regionParams pointwiseEnv.toRegionEnv viewMembers ["z"] ["y"] = some params ∧
      regionSeed pointwiseEnv params viewMembers = .ok seed ∧
      SeedSound pointwiseEnv viewMembers params seed := by
  have hparams : regionParams pointwiseEnv.toRegionEnv viewMembers ["z"] ["y"] =
      some [⟨.scratch, "y"⟩, ⟨.output, "z"⟩, ⟨.input, "h"⟩] := by decide
  obtain ⟨seed, hseed⟩ : ∃ seed, regionSeed pointwiseEnv
      [⟨.scratch, "y"⟩, ⟨.output, "z"⟩, ⟨.input, "h"⟩] viewMembers = .ok seed :=
    Fallible.exists_of_isOk (by decide)
  have hir : IrMembers pointwiseEnv viewMembers :=
    irMembers_pointwiseEnv (by decide) (by decide) (by decide)
  exact ⟨_, seed, hparams, hseed,
    (seedSound_iff_namesDistinct hir hparams hseed).mpr ⟨by decide, by decide⟩⟩

end ModelBlaster.RegionSlots
