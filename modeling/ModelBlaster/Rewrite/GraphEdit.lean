import ModelBlaster.Library.PyStr
import ModelBlaster.Library.Fallible
import ModelBlaster.Library.KahnLoop
import ModelBlaster.Library.PyDict

/-!
# Patches of a graph

`graph_edit` stores an edited graph as a patch against the graph it was made from. A field of a
JSON object that no function looks into is left abstract, and `sha1` is a parameter for ops and for
graphs.

## Main definitions

* `EditOp`, `EditGraph`: a graph, as far as patches see it;
* `opDigest`, `graphDigest`: the digests;
* `uniqueNames`, `toposort`: unique op names, and a stable topological order;
* `diff`, `applyPatch`: a patch, and its application;
* `toposortInPlace`: what the call raises, and the graph that it leaves;
* `Feeds`: an op reads a tensor of another one;
* `IsTopological`: an order of the indices in which every op is behind those that feed it.

## Main results

* `toposort_exact`: when the call succeeds, and the order that it finds.
-/

namespace ModelBlaster.GraphEdit

open List Function

/-! ### Graphs -/

/-- The fields of an op that carry semantics: its name, the three lists of tensors where it has
them, and the others. -/
structure OpContent (α : Type) where
  name : String
  inputs : Option (List String)
  outputs : Option (List String)
  internal : Option (List String)
  rest : α
  deriving DecidableEq

/-- An op. -/
structure EditOp (α β : Type) extends OpContent α where
  /-- `dispatch_id`, `depends_on`, `hint` and `slot_variant` -/
  volatile : Option β
  deriving DecidableEq

/-- An entry of `tensors`. -/
structure TensorMeta (τ : Type) where
  /-- `const` -/
  isConst : Bool
  rest : τ
  deriving DecidableEq

/-- The `input` of a graph. -/
structure GraphInput (ι : Type) where
  /-- The names of `packed_inputs`, or the `tensor`. -/
  names : List String
  rest : ι
  deriving DecidableEq

/-- A graph, with the types that its abstract parts have. -/
structure EditGraph (α β τ ι ο ν : Type) where
  ops : List (EditOp α β)
  tensors : PyDict String (TensorMeta τ)
  input : GraphInput ι
  output : ο
  /-- `weight_derivations` -/
  derivations : Option (PyDict String ν)
  /-- `weight_dtypes` -/
  weightDtypes : Option (PyDict String String)
  deriving DecidableEq

/-- `PatchError`, by its code, with the name in its text. -/
inductive PatchError where
  | stale (op : String)
  | exists (name : String)
  | missing (tensor : String)
  | cycle
  | invalid (name : String)
  deriving DecidableEq, Repr

variable {α β τ ι ο ν : Type}

/-- `o.get("inputs", [])` -/
def EditOp.reads (o : EditOp α β) : List String := o.inputs.getD []

/-- `o.get("outputs", [])` -/
def EditOp.writes (o : EditOp α β) : List String := o.outputs.getD []

/-- `g.get("weight_derivations") or {}` -/
def EditGraph.derived (g : EditGraph α β τ ι ο ν) : PyDict String ν :=
  g.derivations.getD PyDict.empty

/-! ### Digests -/

/-- What the digest of a graph is taken of: its ops by name, with their digests, and the parts that
are dumped with sorted keys. -/
structure GraphContent (τ ι ο ν : Type) where
  ops : List (String × String)
  tensors : String → Option (TensorMeta τ)
  input : GraphInput ι
  output : ο
  derivations : String → Option ν

section
variable (opSha : OpContent α → String) (graphSha : GraphContent τ ι ο ν → String)

/-- `op_digest` -/
def opDigest (o : EditOp α β) : String := opSha o.toOpContent

/-- `sorted`, on pairs of strings. -/
def sortedPairs (l : List (String × String)) : List (String × String) :=
  l.insertionSort fun a b => toLex a ≤ toLex b

/-- The content of a graph. -/
def graphContent (g : EditGraph α β τ ι ο ν) : GraphContent τ ι ο ν where
  ops := sortedPairs (g.ops.map fun o => (o.name, opDigest opSha o))
  tensors := g.tensors.get?
  input := g.input
  output := g.output
  derivations := g.derived.get?

/-- `graph_digest` -/
def graphDigest (g : EditGraph α β τ ι ο ν) : String := graphSha (graphContent opSha g)

end

/-! ### Unique names -/

/-- The name of the `k`-th repeat of `n`. -/
def repeatName (n : String) (k : ℕ) : String := n ++ "#" ++ toString k

variable {n : String} {taken : List String} {ops : List (EditOp α β)} {seen : String → ℕ} {γ : Type}

theorem repeatName_inj {k k' : ℕ} (h : repeatName n k = repeatName n k') : k = k' := by
  have hlist := congrArg String.toList h
  simp only [repeatName, String.toList_append] at hlist
  have hstr : toString (k : ℤ) = toString (k' : ℤ) :=
    String.toList_injective (append_cancel_left hlist)
  exact Int.ofNat_inj.mp (Decimal.toString_inj.mp hstr)

theorem exists_repeatName_notMem (taken : List String) (n : String) (k : ℕ) :
    ∃ j, repeatName n (k + j) ∉ taken := by
  by_contra h
  simp only [not_exists, not_not] at h
  have hinj : Function.Injective fun j => repeatName n (k + j) := by
    intro i j hij
    have heq := repeatName_inj hij
    omega
  -- One more name than there are names taken.
  have hnodup : ((List.range (taken.length + 1)).map fun j => repeatName n (k + j)).Nodup :=
    nodup_range.map hinj
  have hsub : ((List.range (taken.length + 1)).map fun j => repeatName n (k + j)) ⊆ taken := by
    intro m hm
    obtain ⟨j, -, rfl⟩ := mem_map.mp hm
    exact h j
  have hle := (hnodup.subperm hsub).length_le
  simp at hle

/-- `while f"{n}#{k}" in taken: k += 1` -/
def freshName (taken : List String) (n : String) (k : ℕ) : String :=
  repeatName n (k + Nat.find (exists_repeatName_notMem taken n k))

/-- The loop of `unique_names`, with `seen` and `taken`. -/
def renameFrom (seen : String → ℕ) (taken : List String) :
    List (EditOp α β) → List (EditOp α β)
  | [] => []
  | o :: rest =>
    let k := seen o.name
    let seen' := Function.update seen o.name (k + 1)
    if k = 0 then
      o :: renameFrom seen' taken rest
    else
      let name := freshName taken o.name k
      { o with name } :: renameFrom seen' (name :: taken) rest

/-- `unique_names` -/
def uniqueNames (g : EditGraph α β τ ι ο ν) : EditGraph α β τ ι ο ν :=
  { g with ops := renameFrom (fun _ => 0) (g.ops.map fun o => o.name) g.ops }

theorem freshName_notMem (taken : List String) (n : String) (k : ℕ) :
    freshName taken n k ∉ taken :=
  Nat.find_spec (exists_repeatName_notMem taken n k)

/-- A name that the loop gives is new, or it is the name of an op that is the first with it. -/
theorem mem_renameFrom (h : n ∈ (renameFrom seen taken ops).map fun o => o.name) :
    n ∉ taken ∨ seen n = 0 ∧ n ∈ ops.map fun o => o.name := by
  induction ops generalizing seen taken with
  | nil => cases h
  | cons o rest ih =>
    rw [renameFrom] at h
    split_ifs at h with hk
    · rcases mem_cons.mp h with rfl | hrest
      · exact .inr ⟨hk, mem_cons_self⟩
      · refine (ih hrest).imp_right fun ⟨hseen, hmem⟩ => ?_
        by_cases hn : n = o.name
        · rw [hn, update_self] at hseen
          omega
        · rw [update_of_ne hn] at hseen
          exact ⟨hseen, mem_cons_of_mem _ hmem⟩
    · rcases mem_cons.mp h with rfl | hrest
      · exact .inl (freshName_notMem taken o.name _)
      · rcases ih hrest with hnew | ⟨hseen, hmem⟩
        · exact .inl fun hn => hnew (mem_cons_of_mem _ hn)
        · by_cases hn : n = o.name
          · rw [hn, update_self] at hseen
            omega
          · rw [update_of_ne hn] at hseen
            exact .inr ⟨hseen, mem_cons_of_mem _ hmem⟩

theorem nodup_renameFrom (htaken : ∀ o ∈ ops, o.name ∈ taken) :
    ((renameFrom seen taken ops).map fun o => o.name).Nodup := by
  induction ops generalizing seen taken with
  | nil => exact nodup_nil
  | cons o rest ih =>
    have hrest : ∀ o' ∈ rest, o'.name ∈ taken := fun o' ho' =>
      htaken o' (mem_cons_of_mem o ho')
    rw [renameFrom]
    split_ifs with hk
    · refine nodup_cons.mpr ⟨fun hmem => ?_, ih hrest⟩
      rcases mem_renameFrom hmem with hnew | ⟨hseen, -⟩
      · exact hnew (htaken o mem_cons_self)
      · rw [update_self] at hseen
        omega
    · refine nodup_cons.mpr ⟨fun hmem => ?_, ih fun o' ho' =>
        mem_cons_of_mem _ (hrest o' ho')⟩
      -- The new name is neither given again nor the name of an op.
      rcases mem_renameFrom hmem with hnew | ⟨-, hold⟩
      · exact hnew mem_cons_self
      · obtain ⟨o', ho', heq⟩ := mem_map.mp hold
        have hfresh := freshName_notMem taken o.name (seen o.name)
        exact hfresh ((show o'.name = freshName taken o.name _ from heq) ▸ hrest o' ho')

/-- Afterwards the names are unique. -/
theorem nodup_uniqueNames (g : EditGraph α β τ ι ο ν) :
    ((uniqueNames g).ops.map fun o => o.name).Nodup :=
  nodup_renameFrom fun _ ho => mem_map_of_mem ho

theorem renameFrom_of_nodup (hnd : (ops.map fun o => o.name).Nodup)
    (hseen : ∀ o ∈ ops, seen o.name = 0) :
    renameFrom seen taken ops = ops := by
  induction ops generalizing seen with
  | nil => rfl
  | cons o rest ih =>
    rw [map_cons, nodup_cons] at hnd
    rw [renameFrom, if_pos (hseen o mem_cons_self)]
    congr 1
    apply ih hnd.2
    intro o' ho'
    have hne : o'.name ≠ o.name := fun heq => hnd.1 (heq ▸ mem_map_of_mem ho')
    rw [update_of_ne hne]
    exact hseen o' (mem_cons_of_mem o ho')

/-- Names that are unique stay as they are. -/
theorem uniqueNames_of_nodup {g : EditGraph α β τ ι ο ν} (hnd : (g.ops.map fun o => o.name).Nodup) :
    uniqueNames g = g := by
  rw [uniqueNames, renameFrom_of_nodup hnd fun _ _ => rfl]

/-! ### Topological order -/

/-- The producers of the tensors, by index. -/
def producers (ops : List (EditOp α β)) : Except PatchError (PyDict String ℕ) :=
  ops.zipIdx.foldlM (fun prod p =>
    (p.1.writes ++ p.1.internal.getD []).foldlM (fun prod t =>
      if t ∈ prod.keys then .error (.invalid t) else .ok (prod.set t p.2)) prod) PyDict.empty

/-- The ops that the op at `i` depends on. -/
def dependencies (ginputs : List String) (prod : PyDict String ℕ) (i : ℕ) (o : EditOp α β) :
    Except PatchError (List ℕ) :=
  o.reads.foldlM (fun d t =>
    match prod.get? t with
    | some j => .ok (if j = i ∨ j ∈ d then d else d ++ [j])
    | none => if t ∈ ginputs then .ok d else .error (.missing t)) []

/-- `toposort`. The sets in `waiting` are kept by their sizes. -/
def toposort (g : EditGraph α β τ ι ο ν) : Except PatchError (EditGraph α β τ ι ο ν) := do
  let ginputs := g.input.names ++
    (g.tensors.items.filter fun item => item.2.isConst).map Prod.fst
  let prod ← producers g.ops
  let deps ← g.ops.zipIdx.mapM fun p => dependencies ginputs prod p.2 p.1
  let edges := deps.zipIdx.flatMap fun p => p.1.map fun j => (j, p.2)
  let order := KahnSort.sort edges (List.range g.ops.length) id
  if order.length = g.ops.length then
    return { g with ops := order.filterMap fun i => g.ops[i]? }
  else
    .error .cycle

/-- The list by its positions. -/
theorem filterMap_getElem?_range (l : List γ) :
    ((List.range l.length).filterMap fun i => l[i]?) = l := by
  have hmap : (List.range l.length).map (fun i => l[i]?) = l.map some := by
    apply List.ext_getElem
    · simp
    · intro i h₁ h₂
      simp
  calc (List.range l.length).filterMap (fun i => l[i]?)
      = ((List.range l.length).map fun i => l[i]?).filterMap id := by
        rw [filterMap_map]
        rfl
    _ = l := by
        rw [hmap, filterMap_map]
        exact filterMap_some

/-- The list by its positions, in whatever order they come. -/
theorem filterMap_getElem?_perm {l : List γ} {order : List ℕ} (h : order.Perm (List.range l.length)) :
    (order.filterMap fun i => l[i]?).Perm l := by
  have hperm := h.filterMap fun i => l[i]?
  rwa [filterMap_getElem?_range] at hperm

/-- A topological order is a reordering of the ops. -/
theorem toposort_spec {g r : EditGraph α β τ ι ο ν} (h : toposort g = .ok r) :
    r.ops.Perm g.ops ∧ r = { g with ops := r.ops } := by
  obtain ⟨prod, -, h⟩ := Fallible.bind_eq_ok_iff.mp h
  obtain ⟨deps, hdeps, h⟩ := Fallible.bind_eq_ok_iff.mp h
  dsimp only at h
  split_ifs at h with hlen
  injection h with h
  subst h
  refine ⟨filterMap_getElem?_perm ?_, rfl⟩
  have hcount : deps.length = g.ops.length := by
    rw [← (Fallible.mapM_eq_ok_iff.mp hdeps).length_eq, length_zipIdx]
  have hgreedy := KahnSort.greedy_sort (id : ℕ → ℕ)
    (E := deps.zipIdx.flatMap fun p => p.1.map fun j => (j, p.2))
    (nodup_range (n := g.ops.length)) (by
      intro u v huv
      obtain ⟨p, hp, huv⟩ := mem_flatMap.mp huv
      obtain ⟨j, -, heq⟩ := mem_map.mp huv
      cases heq
      have := snd_lt_of_mem_zipIdx hp
      rw [mem_range]
      omega)
  exact (hgreedy.nodup.subperm hgreedy.subset).perm_of_length_le (by simpa using hlen.ge)

/-! ### Patches -/

/-- The format that a patch names. -/
def patchFormat : String := "modelblaster.graph_rewrite.patch/v1"

/-- A patch. -/
structure Patch (α β τ ν : Type) where
  format : String
  removeOps : List String
  addOps : List (EditOp α β)
  addTensors : PyDict String (TensorMeta τ)
  removeTensors : List String
  changedTensors : List String
  weightDerivations : PyDict String ν
  weightDtypes : PyDict String String
  /-- The digests of the ops that are removed. -/
  requires : PyDict String String

/-- The ops of a graph by name. -/
def opsByName (g : EditGraph α β τ ι ο ν) : PyDict String (EditOp α β) :=
  PyDict.ofList (g.ops.map fun o => (o.name, o))

section
variable [DecidableEq τ] [DecidableEq ν] (opSha : OpContent α → String)

/-- The op under a name is not the same in the other graph. -/
def differs (ops ops' : PyDict String (EditOp α β)) (n : String) : Bool :=
  match ops.get? n, ops'.get? n with
  | some o, some o' => opDigest opSha o ≠ opDigest opSha o'
  | _, _ => true

/-- `diff` -/
def diff (base edited : EditGraph α β τ ι ο ν) : Patch α β τ ν :=
  let b := uniqueNames base
  let e := uniqueNames edited
  let bo := opsByName b
  let eo := opsByName e
  let removed := bo.filter fun n => differs opSha eo bo n
  { format := patchFormat
    removeOps := removed.keys
    addOps := ((eo.filter fun n => differs opSha bo eo n).items.map Prod.snd).map fun o =>
      { o with volatile := none }
    addTensors := e.tensors.filter fun t => t ∉ b.tensors.keys
    removeTensors := b.tensors.keys.filter fun t => t ∉ e.tensors.keys
    changedTensors := e.tensors.keys.filter fun t =>
      t ∈ b.tensors.keys ∧ e.tensors.get? t ≠ b.tensors.get? t
    weightDerivations := e.derived.filter fun k => k ∉ b.derived.keys
    weightDtypes := (e.weightDtypes.getD PyDict.empty).filter fun k =>
      k ∉ (b.weightDtypes.getD PyDict.empty).keys
    requires := removed.mapItems fun _ o => opDigest opSha o }

/-- The ops that a patch requires are there. -/
def checkRequires (ops : PyDict String (EditOp α β)) (requires : PyDict String String) :
    Except PatchError Unit :=
  requires.items.foldlM (fun _ item =>
    match ops.get? item.1 with
    | none => .error (.stale item.1)
    | some o => if opDigest opSha o = item.2 then .ok () else .error (.stale item.1)) ()

/-- The ops that a patch adds. -/
def addOps (ops new : List (EditOp α β)) : Except PatchError (List (EditOp α β)) :=
  new.foldlM (fun ops o =>
    if o.name ∈ ops.map fun o => o.name then .error (.exists o.name) else .ok (ops ++ [o])) ops

/-- Entries that a patch adds to a table. -/
def addEntries {μ : Type} [DecidableEq μ] (d new : PyDict String μ) :
    Except PatchError (PyDict String μ) :=
  new.items.foldlM (fun d item =>
    match d.get? item.1 with
    | some m => if m = item.2 then .ok (d.set item.1 item.2) else .error (.exists item.1)
    | none => .ok (d.set item.1 item.2)) d

/-- `any(t in o.get("inputs", []) or t in o.get("outputs", []) for o in ops)` -/
def used (ops : List (EditOp α β)) (t : String) : Bool :=
  ops.any fun o => t ∈ o.reads ∨ t ∈ o.writes

/-- The tensors that a patch removes, but for those that an op still names. -/
def removeTensors (ops : List (EditOp α β)) (tensors : PyDict String (TensorMeta τ))
    (names : List String) : PyDict String (TensorMeta τ) :=
  names.foldl (fun d t => if used ops t then d else d.pop t) tensors

/-- `apply_patch` -/
def applyPatch (graph : EditGraph α β τ ι ο ν) (patch : Patch α β τ ν) :
    Except PatchError (EditGraph α β τ ι ο ν) :=
  if patch.format ≠ patchFormat then .error (.invalid patch.format) else do
    let g := uniqueNames graph
    checkRequires opSha (opsByName g) patch.requires
    let ops ← addOps (g.ops.filter fun o => o.name ∉ patch.removeOps) patch.addOps
    let tensors ← addEntries g.tensors patch.addTensors
    let tensors := removeTensors ops tensors patch.removeTensors
    if patch.weightDerivations.items.isEmpty then
      toposort { g with ops, tensors }
    else do
      let derivations ← addEntries g.derived patch.weightDerivations
      let weightDtypes :=
        if patch.weightDtypes.items.isEmpty then g.weightDtypes
        else some (patch.weightDtypes.items.foldl (fun d item => d.set item.1 item.2)
          (g.weightDtypes.getD PyDict.empty))
      toposort { g with ops, tensors, derivations := some derivations, weightDtypes }

end

end ModelBlaster.GraphEdit

/-! ## The stable topological order -/

namespace ModelBlaster.GraphEdit

open List Fallible PyDict

variable {α β τ ι ο ν : Type}

/-- `toposort`, with the graph that it leaves. The ops are assigned at the end. -/
def toposortInPlace (g : EditGraph α β τ ι ο ν) :
    Except PatchError Unit × EditGraph α β τ ι ο ν :=
  match toposort g with
  | .ok r => (.ok (), { g with ops := r.ops })
  | .error e => (.error e, g)

/-- The tensors that an op produces: its outputs and those inside. -/
def EditOp.produced (o : EditOp α β) : List String := o.writes ++ o.internal.getD []

/-- The graph inputs and the constants. -/
def EditGraph.ginputs (g : EditGraph α β τ ι ο ν) : List String :=
  g.input.names ++ (g.tensors.items.filter fun item => item.2.isConst).map Prod.fst

/-- Every tensor has one producer at most. -/
def ProducedOnce (g : EditGraph α β τ ι ο ν) : Prop := (g.ops.flatMap EditOp.produced).Nodup

/-- Every tensor that is read is produced, a graph input or a constant. -/
def ReadsGiven (g : EditGraph α β τ ι ο ν) : Prop :=
  ∀ o ∈ g.ops, ∀ t ∈ o.reads, t ∈ g.ops.flatMap EditOp.produced ∨ t ∈ g.ginputs

/-- The op at `j` reads a tensor that the op at `i`, another one, produces. -/
def Feeds (g : EditGraph α β τ ι ο ν) (i j : ℕ) : Prop :=
  i ≠ j ∧ ∃ o o', g.ops[i]? = some o ∧ g.ops[j]? = some o' ∧ ∃ t ∈ o.produced, t ∈ o'.reads

/-- The producers of the tensors are acyclic. -/
def FeedsAcyclic (g : EditGraph α β τ ι ο ν) : Prop := ∀ i, ¬Relation.TransGen (Feeds g) i i

/-- The indices of the ops, each behind those that feed it. -/
structure IsTopological (g : EditGraph α β τ ι ο ν) (order : List ℕ) : Prop where
  perm : order.Perm (List.range g.ops.length)
  idxOf_lt : ∀ i j, Feeds g i j → order.idxOf i < order.idxOf j

/-! ### Producers -/

variable {g : EditGraph α β τ ι ο ν} {prod : PyDict String ℕ} {order : List ℕ}

/-- Two ops do not produce the same tensor. -/
theorem ProducedOnce.unique (h : ProducedOnce g) {i j : ℕ} {o o' : EditOp α β}
    (ho : g.ops[i]? = some o) (ho' : g.ops[j]? = some o') {t : String} (ht : t ∈ o.produced)
    (ht' : t ∈ o'.produced) : i = j := by
  obtain ⟨hi, rfl⟩ := List.getElem?_eq_some_iff.mp ho
  obtain ⟨hj, rfl⟩ := List.getElem?_eq_some_iff.mp ho'
  have hpair := (nodup_flatMap.mp h).2
  rw [pairwise_iff_getElem] at hpair
  rcases Nat.lt_trichotomy i j with hlt | heq | hgt
  · exact absurd ht' (disjoint_left.mp (hpair i j hi hj hlt) ht)
  · exact heq
  · exact absurd ht (disjoint_left.mp (hpair j i hj hi hgt) ht')

/-- The tensors of a list, none of which is registered, are registered for an op. -/
private theorem foldlM_register (i : ℕ) {l : List String} (hnd : l.Nodup) {d : PyDict String ℕ}
    (hnew : ∀ t ∈ l, t ∉ d.keys) :
    ∃ d', l.foldlM (fun d t => if t ∈ d.keys then Except.error (PatchError.invalid t)
        else .ok (d.set t i)) d = .ok d' ∧
      ∀ t j, d'.get? t = some j ↔ d.get? t = some j ∨ t ∈ l ∧ j = i := by
  refine exists_foldlM_eq_ok
    (P := fun done (d' : PyDict String ℕ) => ∀ t j, d'.get? t = some j ↔ d.get? t = some j ∨ t ∈ done ∧ j = i)
    ?_ (by simp)
  intro done t rest d₁ hsplit hd₁
  have hmem : t ∈ l := by simp [← hsplit]
  have hdone : t ∉ done := by
    rw [← hsplit] at hnd
    exact fun h => (nodup_append.mp hnd).2.2 t h t mem_cons_self rfl
  have hfree : t ∉ d₁.keys := by
    rw [mem_keys_iff]
    rintro ⟨j, hj⟩
    rcases (hd₁ t j).mp hj with hold | ⟨h, -⟩
    · exact hnew t hmem (mem_keys_of_get? hold)
    · exact hdone h
  refine ⟨d₁.set t i, if_neg hfree, fun t' j => ?_⟩
  rw [get?_set]
  by_cases heq : t' = t
  · subst heq
    have hnone : d.get? t' = none := get?_eq_none_iff.mpr (hnew t' hmem)
    simp [hnone, eq_comm]
  · rw [if_neg heq, hd₁]
    simp [heq]

/-- Where every tensor has one producer at most, the producers are found. -/
theorem exists_producers (h : ProducedOnce g) :
    ∃ prod, producers g.ops = .ok prod ∧ ∀ t i, prod.get? t = some i ↔
      ∃ o, g.ops[i]? = some o ∧ t ∈ o.produced := by
  have hrun := exists_foldlM_eq_ok (ε := PatchError) (l := g.ops.zipIdx)
    (f := fun prod p => (p.1.writes ++ p.1.internal.getD []).foldlM (fun prod t =>
      if t ∈ prod.keys then .error (.invalid t) else .ok (prod.set t p.2)) prod)
    (P := fun done prod => ∀ t i, prod.get? t = some i ↔ ∃ o, (o, i) ∈ done ∧ t ∈ o.produced)
    (b := PyDict.empty) ?_ (by simp)
  · obtain ⟨prod, hprod, hspec⟩ := hrun
    refine ⟨prod, hprod, fun t i => ?_⟩
    rw [hspec]
    simp only [mem_zipIdx_iff_getElem?]
  · rintro done ⟨o, i⟩ rest prod hsplit hprod
    have hmem : (o, i) ∈ g.ops.zipIdx := by simp [← hsplit]
    have hget : g.ops[i]? = some o := mem_zipIdx_iff_getElem?.mp hmem
    have hnd : o.produced.Nodup := (nodup_flatMap.mp h).1 o (mem_of_getElem? hget)
    obtain ⟨prod', hrun, hspec⟩ := foldlM_register i (d := prod) hnd fun t ht hkey => by
      -- A producer before it would be the same op.
      obtain ⟨j, hj⟩ := mem_keys_iff.mp hkey
      obtain ⟨o', ho', ht'⟩ := (hprod t j).mp hj
      have hget' : g.ops[j]? = some o' :=
        mem_zipIdx_iff_getElem?.mp (hsplit ▸ mem_append_left _ ho')
      obtain rfl := h.unique hget hget' ht ht'
      have hfirst : i ∈ done.map Prod.snd := mem_map_of_mem ho'
      have hndi : (g.ops.zipIdx.map Prod.snd).Nodup := by
        rw [zipIdx_map_snd]
        exact nodup_range'
      rw [← hsplit, map_append] at hndi
      exact (nodup_append.mp hndi).2.2 i hfirst i mem_cons_self rfl
    refine ⟨prod', hrun, fun t j => ?_⟩
    rw [hspec, hprod]
    simp only [mem_append, mem_singleton, Prod.mk.injEq]
    constructor
    · rintro (⟨o', ho', ht⟩ | ⟨ht, rfl⟩)
      · exact ⟨o', .inl ho', ht⟩
      · exact ⟨o, .inr ⟨rfl, rfl⟩, ht⟩
    · rintro ⟨o', ho' | ⟨rfl, rfl⟩, ht⟩
      · exact .inl ⟨o', ho', ht⟩
      · exact .inr ⟨ht, rfl⟩

/-! ### Dependencies -/

/-- The dependencies of an op whose reads are given are the other producers of what it reads. -/
private theorem exists_dependencies {ginputs : List String} (i : ℕ) (o : EditOp α β)
    (h : ∀ t ∈ o.reads, t ∈ prod.keys ∨ t ∈ ginputs) :
    ∃ d, dependencies ginputs prod i o = .ok d ∧
      ∀ j, j ∈ d ↔ j ≠ i ∧ ∃ t ∈ o.reads, prod.get? t = some j := by
  refine exists_foldlM_eq_ok
    (P := fun done d => ∀ j, j ∈ d ↔ j ≠ i ∧ ∃ t ∈ done, prod.get? t = some j) ?_ (by simp)
  intro done t rest d hsplit hd
  have hmem : t ∈ o.reads := by simp [← hsplit]
  cases hget : prod.get? t with
  | none =>
    have hgiven : t ∈ ginputs := by
      refine (h t hmem).resolve_left fun hkey => ?_
      exact get?_eq_none_iff.mp hget hkey
    refine ⟨d, if_pos hgiven, fun j => ?_⟩
    rw [hd]
    simp [or_and_right, exists_or, hget]
  | some k =>
    refine ⟨_, rfl, fun j => ?_⟩
    have hstep : (∃ t' ∈ done ++ [t], prod.get? t' = some j) ↔
        (∃ t' ∈ done, prod.get? t' = some j) ∨ k = j := by
      simp [or_and_right, exists_or, hget]
    rw [hstep]
    split_ifs with hold
    · rw [hd]
      rcases hold with rfl | hk
      · exact and_congr_right fun hj => (or_iff_left (Ne.symm hj)).symm
      · rw [hd] at hk
        constructor
        · rintro ⟨hj, ht⟩
          exact ⟨hj, .inl ht⟩
        · rintro ⟨hj, ht | rfl⟩
          · exact ⟨hj, ht⟩
          · exact hk
    · rw [not_or] at hold
      rw [mem_append, mem_singleton, hd]
      constructor
      · rintro (⟨hj, ht⟩ | rfl)
        · exact ⟨hj, .inl ht⟩
        · exact ⟨hold.1, .inr rfl⟩
      · rintro ⟨hj, ht | rfl⟩
        · exact .inl ⟨hj, ht⟩
        · exact .inr rfl

/-! ### The order -/

/-- The edges between the indices of the ops are those between ops that feed each other. -/
private theorem exists_edges (hprod : ProducedOnce g) (hreads : ReadsGiven g) :
    ∃ prod deps, producers g.ops = .ok prod ∧
      g.ops.zipIdx.mapM (fun p => dependencies g.ginputs prod p.2 p.1) = .ok deps ∧
      ∀ i j, (i, j) ∈ (deps.zipIdx.flatMap fun p => p.1.map fun k => (k, p.2)) ↔ Feeds g i j := by
  obtain ⟨prod, hrun, hspec⟩ := exists_producers hprod
  have hdep : ∀ o ∈ g.ops, ∀ i, ∃ d, dependencies g.ginputs prod i o = .ok d ∧
      ∀ j, j ∈ d ↔ j ≠ i ∧ ∃ t ∈ o.reads, prod.get? t = some j := by
    intro o ho i
    refine exists_dependencies i o fun t ht => (hreads o ho t ht).imp_left fun hmade => ?_
    obtain ⟨o', ho', ht'⟩ := mem_flatMap.mp hmade
    obtain ⟨j, hj⟩ := mem_iff_getElem?.mp ho'
    exact mem_keys_of_get? ((hspec t j).mpr ⟨o', hj, ht'⟩)
  obtain ⟨deps, hdeps⟩ := exists_mapM_eq_ok (l := g.ops.zipIdx)
    (f := fun p => dependencies g.ginputs prod p.2 p.1) fun p hp => by
      obtain ⟨d, hd, -⟩ := hdep p.1 (mem_of_getElem? (mem_zipIdx_iff_getElem?.mp hp)) p.2
      exact ⟨d, hd⟩
  refine ⟨prod, deps, hrun, hdeps, fun i j => ?_⟩
  -- The dependencies of the op at `j`.
  have hat : ∀ d, deps[j]? = some d → ∀ k, k ∈ d ↔ Feeds g k j := by
    intro d hd k
    have hlen : j < g.ops.zipIdx.length := by
      rw [← length_of_mapM hdeps]
      exact (List.getElem?_eq_some_iff.mp hd).1
    rw [length_zipIdx] at hlen
    have hp : g.ops.zipIdx[j]? = some (g.ops[j], j) := by simp [hlen]
    obtain ⟨d', hd', hrun'⟩ := getElem?_of_mapM hdeps hp
    obtain ⟨d'', hrun'', hmem⟩ := hdep g.ops[j] (getElem_mem hlen) j
    rw [hd] at hd'
    cases hd'
    cases hrun'.symm.trans hrun''
    rw [hmem, Feeds]
    refine and_congr_right fun _ => ?_
    constructor
    · rintro ⟨t, ht, hget⟩
      obtain ⟨o, ho, hmade⟩ := (hspec t k).mp hget
      exact ⟨o, g.ops[j], ho, getElem?_eq_getElem hlen, t, hmade, ht⟩
    · rintro ⟨o, o', ho, ho', t, hmade, ht⟩
      rw [getElem?_eq_getElem hlen] at ho'
      cases ho'
      exact ⟨t, ht, (hspec t k).mpr ⟨o, ho, hmade⟩⟩
  constructor
  · intro h
    obtain ⟨⟨d, k⟩, hp, hmem⟩ := mem_flatMap.mp h
    obtain ⟨i', hi', heq⟩ := mem_map.mp hmem
    cases heq
    exact (hat d (mem_zipIdx_iff_getElem?.mp hp) i).mp hi'
  · intro h
    obtain ⟨-, -, o', -, ho', -⟩ := id h
    have hlen : j < deps.length := by
      rw [length_of_mapM hdeps, length_zipIdx]
      exact (List.getElem?_eq_some_iff.mp ho').1
    refine mem_flatMap.mpr ⟨(deps[j], j), ?_, ?_⟩
    · exact mem_zipIdx_iff_getElem?.mpr (getElem?_eq_getElem hlen)
    · exact mem_map_of_mem ((hat _ (getElem?_eq_getElem hlen) i).mpr h)

/-- The sort succeeds if it places all indices, and then it has placed the ops in that order. -/
private theorem toposort_eq {deps : List (List ℕ)} (hprod : producers g.ops = .ok prod)
    (hdeps : g.ops.zipIdx.mapM (fun p => dependencies g.ginputs prod p.2 p.1) = .ok deps) :
    toposort g =
      let edges := deps.zipIdx.flatMap fun p => p.1.map fun k => (k, p.2)
      let order := KahnSort.sort edges (List.range g.ops.length) id
      if order.length = g.ops.length then .ok { g with ops := order.filterMap fun i => g.ops[i]? }
      else .error .cycle := by
  rw [toposort, hprod]
  show (g.ops.zipIdx.mapM (fun p => dependencies g.ginputs prod p.2 p.1) >>= _) = _
  rw [hdeps]
  rfl

/-- The order of a list is topological for the edges iff it is for the ops. -/
private theorem topological_iff {edges : List (ℕ × ℕ)}
    (hedges : ∀ i j, (i, j) ∈ edges ↔ Feeds g i j) :
    KahnSort.Topological edges (List.range g.ops.length) order ↔ IsTopological g order :=
  ⟨fun h => ⟨h.perm, fun i j hij => h.idxOf_lt i j ((hedges i j).mpr hij)⟩,
    fun h => ⟨h.perm, fun i j hij => h.idxOf_lt i j ((hedges i j).mp hij)⟩⟩

/-- Among the orders of the indices none comes before the natural one. -/
private theorem not_lex_range {n : ℕ} (h : order.Perm (List.range n)) :
    ¬List.Lex (· < ·) order (List.range n) := by
  -- Two lists with a common part, the second of which goes on with the least elements left.
  have hmain : ∀ (s : List ℕ) (k m : ℕ), s.Perm (List.range' k m) →
      ¬List.Lex (· < ·) s (List.range' k m) := by
    intro s
    induction s with
    | nil =>
      intro k m hperm hlex
      rw [nil_perm.mp hperm] at hlex
      cases hlex
    | cons a s ih =>
      intro k m hperm hlex
      cases m with
      | zero => cases hlex
      | succ m =>
        cases hlex with
        | cons hlex => exact ih _ m hperm.cons_inv hlex
        | rel hlt =>
          have hmem := hperm.mem_iff.mp mem_cons_self
          rcases mem_cons.mp hmem with heq | hmem
          · omega
          · have := mem_range'_1.mp hmem
            omega
  rw [range_eq_range'] at h ⊢
  exact hmain order 0 n h

/-- What the call raises leaves the graph as it was. If every tensor has one producer at most and
every tensor that is read is given, it succeeds exactly if the producers are acyclic. The order that
it finds is the first one of all topological orders of the indices, so a graph that is sorted
already stays as it is. -/
theorem toposort_exact (g : EditGraph α β τ ι ο ν) :
    (∀ e, (toposortInPlace g).1 = .error e → (toposortInPlace g).2.ops = g.ops) ∧
    (ProducedOnce g → ReadsGiven g →
      ((toposortInPlace g).1 = .ok () ↔ FeedsAcyclic g) ∧
      ((toposortInPlace g).1 = .ok () → ∃ order, IsTopological g order ∧
        (toposortInPlace g).2 = { g with ops := order.filterMap fun i => g.ops[i]? } ∧
        ∀ order', IsTopological g order' → order = order' ∨ List.Lex (· < ·) order order') ∧
      (IsTopological g (List.range g.ops.length) → toposortInPlace g = (.ok (), g))) := by
  refine ⟨fun e he => ?_, fun hprod hreads => ?_⟩
  · rw [toposortInPlace] at he ⊢
    cases hrun : toposort g with
    | ok r =>
      rw [hrun] at he
      cases he
    | error e' => rfl
  · obtain ⟨prod, deps, hprod', hdeps, hedges⟩ := exists_edges hprod hreads
    have heq := toposort_eq hprod' hdeps
    dsimp only at heq
    set edges := deps.zipIdx.flatMap fun p => p.1.map fun k => (k, p.2)
    set order := KahnSort.sort edges (List.range g.ops.length) (id : ℕ → ℕ)
    have hnodes : ∀ i j, (i, j) ∈ edges →
        i ∈ List.range g.ops.length ∧ j ∈ List.range g.ops.length := by
      intro i j hij
      obtain ⟨-, o, o', ho, ho', -⟩ := (hedges i j).mp hij
      exact ⟨mem_range.mpr (List.getElem?_eq_some_iff.mp ho).1,
        mem_range.mpr (List.getElem?_eq_some_iff.mp ho').1⟩
    have hgreedy : KahnSort.Greedy edges (List.range g.ops.length) id order :=
      KahnSort.greedy_sort id nodup_range fun i j hij => (hnodes i j hij).2
    have hrel : EdgeList.Edge edges = Feeds g := by
      ext i j
      exact hedges i j
    have hacyclic : order.length = g.ops.length ↔ FeedsAcyclic g := by
      rw [FeedsAcyclic, ← hrel]
      have hlen := KahnSort.length_sort_eq_iff id nodup_range hnodes
      rwa [length_range] at hlen
    by_cases hlen : order.length = g.ops.length
    · rw [if_pos hlen] at heq
      have hperm : order.Perm (List.range g.ops.length) :=
        (hgreedy.nodup.subperm hgreedy.subset).perm_of_length_le (by simpa using hlen.ge)
      have htop : KahnSort.Topological edges (List.range g.ops.length) order :=
        hgreedy.topological hperm fun i j hij => (hnodes i j hij).2
      have hrun : toposortInPlace g =
          (.ok (), { g with ops := order.filterMap fun i => g.ops[i]? }) := by
        rw [toposortInPlace, heq]
      have hleast : ∀ order', IsTopological g order' →
          order = order' ∨ List.Lex (· < ·) order order' := fun order' h' =>
        hgreedy.eq_or_lex hperm nodup_range Function.injective_id ((topological_iff hedges).mpr h')
      refine ⟨?_, fun _ => ⟨order, (topological_iff hedges).mp htop, by rw [hrun], hleast⟩, ?_⟩
      · rw [hrun]
        exact iff_of_true rfl (hacyclic.mp hlen)
      · intro hsorted
        -- No order is before that of the indices.
        have hrange : order = List.range g.ops.length :=
          (hleast _ hsorted).resolve_right (not_lex_range hperm)
        rw [hrun, hrange, filterMap_getElem?_range]
    · rw [if_neg hlen] at heq
      have hrun : toposortInPlace g = (.error .cycle, g) := by rw [toposortInPlace, heq]
      have hcyclic : ¬FeedsAcyclic g := fun h => hlen (hacyclic.mpr h)
      rw [hrun]
      refine ⟨iff_of_false (fun h => ?_) hcyclic, fun h => ?_, fun hsorted => ?_⟩
      · cases h
      · cases h
      · exact absurd (EdgeList.acyclic_of_rank _ fun i j hij =>
          hsorted.idxOf_lt i j ((hedges i j).mp hij)) (by
            rw [EdgeList.Acyclic, hrel]
            exact hcyclic)

/-- A group that reads what it produces inside, and an op behind it. -/
def groupThenRelu : EditGraph Unit Unit Unit Unit Unit Unit where
  ops := [⟨⟨"group", some ["x", "z"], some ["h"], some ["z"], ()⟩, none⟩,
    ⟨⟨"relu", some ["h"], some ["y"], none, ()⟩, none⟩]
  tensors := PyDict.empty
  input := ⟨["x"], ()⟩
  output := ()
  derivations := none
  weightDtypes := none

/-- It is sorted already. -/
theorem toposort_groupThenRelu : toposortInPlace groupThenRelu = (.ok (), groupThenRelu) := by
  refine ((toposort_exact groupThenRelu).2 ?_ ?_).2.2 ⟨List.Perm.refl _, ?_⟩
  · rw [ProducedOnce]
    decide
  · rw [ReadsGiven]
    decide
  · rintro i j ⟨hne, o, o', ho, ho', t, hmade, ht⟩
    have hi := (List.getElem?_eq_some_iff.mp ho).1
    have hj := (List.getElem?_eq_some_iff.mp ho').1
    simp only [groupThenRelu, length_cons, length_nil] at hi hj
    obtain ⟨rfl, rfl⟩ | ⟨rfl, rfl⟩ : i = 0 ∧ j = 1 ∨ i = 1 ∧ j = 0 := by omega
    · decide
    · -- What the second op produces is not read by the first.
      cases ho
      cases ho'
      obtain rfl := mem_singleton.mp hmade
      exact absurd ht (by decide)

end ModelBlaster.GraphEdit
