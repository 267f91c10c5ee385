import ModelBlaster.Precision.Policy

/-!
# The islands fit their surroundings

Where the two graphs of a model are well formed and the names of the casts are free, the graph that
the policy returns fits the dtypes of its tensors, and it is the graph that it was made from but for
the casts and the kinds of the ops in the islands.

## Main definitions

* `PolicyInput.WellFormed`: the graph of a half precision model, and that in single precision;
* `Rewrites`: how the loop puts casts between the ops;
* `CastInv`: the invariant of the loop;
* `IslandIr`: what is promised of the result.

## Main results

* `apply_islandIr`: the policy keeps the promise;
* `not_islandIr_literal`: integer tensors of an island, views of an input, and names that are taken.
-/

namespace ModelBlaster.PrecisionPolicy

open KernelFusion Relation List Fallible PyDict

variable {α ν : Type}

/-! ### Names of casts -/

/-- The two precisions. -/
def IsPrecision (need : String) : Prop := need = "f16" ∨ need = "f32"

theorem isPrecision_needOf (flagged : List String) (o : PolicyOp α) :
    IsPrecision (needOf flagged o) := by
  unfold needOf
  split
  · exact .inr rfl
  · exact .inl rfl

theorem isPrecision_storedAs (s32 : List String) (t : String) : IsPrecision (storedAs s32 t) := by
  unfold storedAs
  split
  · exact .inr rfl
  · exact .inl rfl

variable {need : String}

theorem IsPrecision.length (h : IsPrecision need) : need.toList.length = 3 := by
  rcases h with rfl | rfl <;> rfl

variable {t : String}

/-- A name belongs to one cast. -/
theorem castName_inj {t' need' : String} (hneed : IsPrecision need) (hneed' : IsPrecision need')
    (h : castName t need = castName t' need') :
    t = t' ∧ need = need' := by
  have hlist := congrArg String.toList h
  simp only [castName, String.toList_append] at hlist
  have hlength : need.toList.length = need'.toList.length := by
    rw [hneed.length, hneed'.length]
  obtain ⟨hfront, hback⟩ := append_inj' hlist hlength
  exact ⟨String.toList_inj.mp (append_cancel_right hfront), String.toList_inj.mp hback⟩

/-! ### Rewritten ops -/

/-- A float tensor of a graph. -/
def IsFloat (w : PyDict String (NpArray ν)) (g : PolicyGraph α) (t : String) : Prop :=
  isFloat w g.tensors t = .ok true

instance (w : PyDict String (NpArray ν)) (g : PolicyGraph α) (t : String) :
    Decidable (IsFloat w g t) :=
  match h : isFloat w g.tensors t with
  | .ok true => isTrue h
  | .ok false => isFalse fun heq => by rw [IsFloat, h] at heq; cases heq
  | .error _ => isFalse fun heq => by rw [IsFloat, h] at heq; cases heq

section
variable (w : PyDict String (NpArray ν)) (g : PolicyGraph α) (flagged : List String)

/-- The tensors in single precision. -/
abbrev storedF32 : List String := islandTensors flagged g

/-- Whether an op of a precision reads a tensor through a cast. -/
def ReadsCast (need t : String) : Prop :=
  IsFloat w g t ∧ storedAs (storedF32 g flagged) t ≠ need

instance (need t : String) : Decidable (ReadsCast w g flagged need t) :=
  inferInstanceAs (Decidable (_ ∧ _))

/-- What an op of a precision reads in place of a tensor. -/
def readName (need t : String) : String :=
  if ReadsCast w g flagged need t then castName t need else t

/-- An op with the kind of its precision. -/
def PolicyOp.renamed (o : PolicyOp α) : PolicyOp α :=
  { o with op := if inIsland flagged o then strip o.op else o.op }

/-- An op behind the loop. -/
def rewritten (o : PolicyOp α) : PolicyOp α :=
  if o.isAlias then o
  else { o.renamed flagged with inputs := o.inputs.map (readName w g flagged (needOf flagged o)) }

@[simp]
theorem outputs_rewritten (o : PolicyOp α) : (rewritten w g flagged o).outputs = o.outputs := by
  unfold rewritten
  split <;> rfl

theorem rewritten_of_isAlias {o : PolicyOp α} (h : o.isAlias = true) :
    rewritten w g flagged o = o := if_pos h

theorem rewritten_of_not_isAlias {o : PolicyOp α} (h : o.isAlias = false) :
    rewritten w g flagged o = { o.renamed flagged with
      inputs := o.inputs.map (readName w g flagged (needOf flagged o)) } :=
  if_neg (by simp [h])

/-- How the loop puts casts between the ops. -/
inductive Rewrites : List PolicyCast → List (PolicyOp α) → List (PolicyOp α) → Prop where
  | nil : Rewrites [] [] []
  | cast {casts done ops} (c : PolicyCast) (h : Rewrites casts done ops) :
      Rewrites (casts ++ [c]) done (ops ++ [c.toOp])
  | op {casts done ops} (o : PolicyOp α) (h : Rewrites casts done ops) :
      Rewrites casts (done ++ [o]) (ops ++ [rewritten w g flagged o])

end

section
variable {w : PyDict String (NpArray ν)} {g : PolicyGraph α} {flagged : List String}

variable {casts : List PolicyCast} {done ops : List (PolicyOp α)}

section
variable (h : Rewrites w g flagged casts done ops)
include h

/-- The ops behind the loop are casts, and ops of the graph. -/
theorem Rewrites.mem_iff {o' : PolicyOp α} :
    o' ∈ ops ↔ (∃ c ∈ casts, o' = c.toOp) ∨ ∃ o ∈ done, o' = rewritten w g flagged o := by
  induction h with
  | nil => simp
  | cast c _ ih =>
    simp only [mem_append, mem_singleton, ih, or_and_right, exists_or, exists_eq_left]
    exact or_right_comm
  | op o _ ih =>
    simp only [mem_append, mem_singleton, ih, or_and_right, exists_or, exists_eq_left, or_assoc]

theorem Rewrites.mem_writesOf {t : String} (ht : t ∈ writesOf done) :
    t ∈ writesOf ops := by
  obtain ⟨o, ho, hout⟩ := PrecisionPolicy.mem_writesOf.mp ht
  refine PrecisionPolicy.mem_writesOf.mpr ⟨_, h.mem_iff.mpr (.inr ⟨o, ho, rfl⟩), ?_⟩
  rwa [outputs_rewritten]

/-- Without the casts, the ops of the graph are left. -/
theorem Rewrites.filter {keep : PolicyOp α → Bool} (hcast : ∀ c ∈ casts, keep c.toOp = false)
    (hop : ∀ o ∈ done, keep (rewritten w g flagged o) = true) :
    ops.filter keep = done.map (rewritten w g flagged) := by
  induction h with
  | nil => rfl
  | cast c _ ih =>
    rw [filter_append, ih (fun c' hc' => hcast c' (mem_append_left _ hc')) hop,
      filter_cons_of_neg (by simp [hcast c]), filter_nil, append_nil]
  | op o _ ih =>
    rw [filter_append, ih hcast fun o' ho' => hop o' (mem_append_left _ ho'),
      filter_cons_of_pos (hop o (by simp)), filter_nil, map_append]
    rfl

end

end

/-! ### The loop -/

/-- A cast stands behind what makes its tensor, and in front of what reads it. -/
def Placed (g : PolicyGraph α) (ops : List (PolicyOp α)) (c : PolicyCast) : Prop :=
  ∃ pre post, ops = pre ++ c.toOp :: post ∧ c.tensor ∈ g.given ++ writesOf pre ∧
    ∀ o ∈ pre, c.out ∉ o.inputs

variable {g : PolicyGraph α}

theorem Placed.append {ops : List (PolicyOp α)} {c : PolicyCast} (h : Placed g ops c)
    (ops' : List (PolicyOp α)) : Placed g (ops ++ ops') c := by
  obtain ⟨pre, post, hsplit, hrest⟩ := h
  refine ⟨pre, post ++ ops', ?_, hrest⟩
  rw [hsplit, append_assoc, cons_append]

/-- The names of the casts are not those of tensors. -/
def CastNamesFree (g : PolicyGraph α) : Prop :=
  ∀ t ∈ g.tensors.keys, castName t "f16" ∉ g.tensors.keys ∧ castName t "f32" ∉ g.tensors.keys

instance (g : PolicyGraph α) : Decidable (CastNamesFree g) :=
  inferInstanceAs (Decidable (∀ t ∈ g.tensors.keys, _))

theorem CastNamesFree.notMem (hfree : CastNamesFree g) (ht : t ∈ g.tensors.keys)
    (hneed : IsPrecision need) : castName t need ∉ g.tensors.keys := by
  rcases hneed with rfl | rfl
  · exact (hfree t ht).1
  · exact (hfree t ht).2

/-- The cast of a tensor is among those that are made. -/
def HasCast (casts : List PolicyCast) (need t : String) : Prop :=
  ∃ c ∈ casts, c.tensor = t ∧ c.toDtype = need

/-- The state of the loop behind some of the ops. -/
structure CastInv (w : PyDict String (NpArray ν)) (g : PolicyGraph α) (flagged : List String)
    (done : List (PolicyOp α)) (s : CastState α) : Prop where
  rewrites : Rewrites w g flagged s.casts done s.newOps
  old : ∀ t ∈ g.tensors.keys, s.tens.get? t = g.tensors.get? t
  new : ∀ c ∈ s.casts, dtypeOf s.tens c.out = some c.toDtype
  keys : ∀ t ∈ s.tens.keys, t ∈ g.tensors.keys ∨ t ∈ s.casts.map PolicyCast.out
  sources : ∀ c ∈ s.casts, c.tensor ∈ g.tensors.keys ∧ IsPrecision c.toDtype ∧
    ReadsCast w g flagged c.toDtype c.tensor
  made : ∀ t need, (s.made.get? (t, need) = none ∧ ¬HasCast s.casts need t) ∨
    (s.made.get? (t, need) = some (castName t need) ∧ HasCast s.casts need t)
  once : (s.casts.map fun c => (c.tensor, c.toDtype)).Nodup
  placed : ∀ c ∈ s.casts, Placed g s.newOps c
  used : ∀ o ∈ done, o.isAlias = false → ∀ t ∈ o.inputs,
    ReadsCast w g flagged (needOf flagged o) t → HasCast s.casts (needOf flagged o) t

section
variable {w : PyDict String (NpArray ν)} {g : PolicyGraph α} {flagged : List String}

variable {t : String}

theorem isFloat_congr {tens tens' : PyDict String (PolicyTensor α)} (h : tens.get? t = tens'.get? t) :
    isFloat w tens t = isFloat w tens' t := by
  unfold isFloat
  rw [h]

/-- What an op of the graph reads behind the loop: its own tensors, and outputs of casts. -/
theorem mem_inputs_rewritten {o : PolicyOp α} {x : String}
    (h : x ∈ (rewritten w g flagged o).inputs) :
    x ∈ o.inputs ∨ o.isAlias = false ∧ ∃ t ∈ o.inputs,
      ReadsCast w g flagged (needOf flagged o) t ∧ x = castName t (needOf flagged o) := by
  unfold rewritten at h
  split at h
  case isTrue => exact .inl h
  case isFalse halias =>
    obtain ⟨t, ht, rfl⟩ := mem_map.mp h
    unfold readName
    split
    case isTrue hreads => exact .inr ⟨by simpa using halias, t, ht, hreads, rfl⟩
    case isFalse => exact .inl ht

variable {done : List (PolicyOp α)} {s : CastState α} {need : String}

/-- Nothing reads the output of a cast that is not made. -/
theorem CastInv.notMem_inputs (hinv : CastInv w g flagged done s) (hfree : CastNamesFree g)
    (hdone : ∀ o ∈ done, ∀ t ∈ o.inputs, t ∈ g.tensors.keys) (ht : t ∈ g.tensors.keys)
    (hneed : IsPrecision need) (hmade : ¬HasCast s.casts need t) {o' : PolicyOp α}
    (ho' : o' ∈ s.newOps) : castName t need ∉ o'.inputs := by
  have hnot := hfree.notMem ht hneed
  intro hread
  rcases hinv.rewrites.mem_iff.mp ho' with ⟨c, hc, rfl⟩ | ⟨o, ho, rfl⟩
  · rw [PolicyCast.toOp, mem_singleton] at hread
    exact hnot (hread ▸ (hinv.sources c hc).1)
  · rcases mem_inputs_rewritten hread with hin | ⟨halias, t', ht', hreads, heq⟩
    · exact hnot (hdone o ho _ hin)
    · obtain ⟨rfl, rfl⟩ := castName_inj hneed (isPrecision_needOf flagged o) heq
      exact hmade (hinv.used o ho halias t ht' hreads)

theorem CastState.tens_addCast (s : CastState α) (t need : String) (info : PolicyTensor α) :
    (s.addCast t need info).tens =
      s.tens.set (castName t need) ⟨info.shape, some need, none, none⟩ := rfl

/-- A cast that is put in. -/
theorem CastInv.addCast (hinv : CastInv w g flagged done s) (hfree : CastNamesFree g)
    (hdone : ∀ o ∈ done, ∀ t ∈ o.inputs, t ∈ g.tensors.keys) (ht : t ∈ g.tensors.keys)
    (hknown : t ∈ g.given ++ writesOf done) (hneed : IsPrecision need)
    (hreads : ReadsCast w g flagged need t) (hmade : ¬HasCast s.casts need t)
    (info : PolicyTensor α) : CastInv w g flagged done (s.addCast t need info) where
  rewrites := hinv.rewrites.cast _
  old := by
    intro u hu
    have hne : u ≠ castName t need := fun heq => hfree.notMem ht hneed (heq ▸ hu)
    exact (get?_set_of_ne _ _ hne).trans (hinv.old u hu)
  new := by
    intro c hc
    rcases mem_append.mp hc with hold | hnew
    · have hne : c.out ≠ castName t need := by
        intro heq
        obtain ⟨-, hprec, -⟩ := hinv.sources c hold
        obtain ⟨htensor, hdtype⟩ := castName_inj hprec hneed heq
        exact hmade ⟨c, hold, htensor, hdtype⟩
      rw [dtypeOf, CastState.tens_addCast, get?_set_of_ne _ _ hne]
      exact hinv.new c hold
    · rw [mem_singleton.mp hnew, dtypeOf, CastState.tens_addCast, PolicyCast.out, get?_set_self]
      rfl
  keys := by
    intro u hu
    rw [CastState.tens_addCast, mem_keys_set] at hu
    show _ ∨ u ∈ (s.casts ++ [_]).map PolicyCast.out
    rw [map_append, mem_append]
    rcases hu with rfl | hold
    · exact .inr (.inr (mem_singleton_self _))
    · exact (hinv.keys u hold).imp_right .inl
  sources := by
    intro c hc
    rcases mem_append.mp hc with hold | hnew
    · exact hinv.sources c hold
    · rw [mem_singleton.mp hnew]
      exact ⟨ht, hneed, hreads⟩
  made := by
    intro t' need'
    have hcasts : HasCast (s.addCast t need info).casts need' t' ↔
        HasCast s.casts need' t' ∨ t = t' ∧ need = need' := by
      simp [HasCast, CastState.addCast, or_and_right, exists_or]
    rw [hcasts]
    unfold CastState.addCast
    by_cases hkey : (t', need') = (t, need)
    · obtain ⟨rfl, rfl⟩ := Prod.mk.inj hkey
      exact .inr ⟨get?_set_self _ _ _, .inr ⟨rfl, rfl⟩⟩
    · have hne : ¬(t = t' ∧ need = need') := by
        rintro ⟨rfl, rfl⟩
        exact hkey rfl
      simp only [get?_set_of_ne _ _ hkey, hne, or_false]
      exact hinv.made t' need'
  once := by
    unfold CastState.addCast
    rw [map_append, nodup_append]
    refine ⟨hinv.once, nodup_singleton _, ?_⟩
    rintro key hkey key' hnew rfl
    obtain ⟨c, hc, rfl⟩ := mem_map.mp hkey
    obtain ⟨htensor, hdtype⟩ := Prod.mk.inj (mem_singleton.mp hnew)
    exact hmade ⟨c, hc, htensor, hdtype⟩
  placed := by
    intro c hc
    rcases mem_append.mp hc with hold | hnew
    · exact (hinv.placed c hold).append _
    · rw [mem_singleton.mp hnew]
      refine ⟨s.newOps, [], rfl, ?_, fun o' ho' =>
        hinv.notMem_inputs hfree hdone ht hneed hmade ho'⟩
      rcases mem_append.mp hknown with hgiven | hwritten
      · exact mem_append_left _ hgiven
      · exact mem_append_right _ (hinv.rewrites.mem_writesOf hwritten)
  used := by
    intro o ho halias u hu hreads'
    obtain ⟨c, hc, hkey⟩ := hinv.used o ho halias u hu hreads'
    exact ⟨c, mem_append_left _ hc, hkey⟩

variable {s' : CastState α}

section
variable (hinv : CastInv w g flagged done s) (hfree : CastNamesFree g)
  (hdone : ∀ o ∈ done, ∀ t ∈ o.inputs, t ∈ g.tensors.keys)
include hinv hfree hdone

/-- What an op reads in place of a tensor, with the cast that it takes. -/
theorem CastInv.readAs {x : String} (ht : t ∈ g.tensors.keys)
    (hknown : t ∈ g.given ++ writesOf done) (hneed : IsPrecision need)
    (h : PrecisionPolicy.readAs w (storedF32 g flagged) need s t = .ok (s', x)) :
    CastInv w g flagged done s' ∧ x = readName w g flagged need t ∧ s.casts ⊆ s'.casts ∧
      (ReadsCast w g flagged need t → HasCast s'.casts need t) := by
  unfold PrecisionPolicy.readAs at h
  rw [isFloat_congr (hinv.old t ht), bind_eq_ok_iff] at h
  obtain ⟨float, hfloat, h⟩ := h
  have hreads : ReadsCast w g flagged need t ↔
      ¬((!float) = true ∨ storedAs (storedF32 g flagged) t = need) := by
    rw [ReadsCast, IsFloat, hfloat]
    cases float <;> simp
  unfold readName
  split at h
  case isTrue hstays =>
    have hno : ¬ReadsCast w g flagged need t := by
      rw [hreads, not_not]
      simpa using hstays
    obtain ⟨rfl, rfl⟩ := Prod.mk.inj (Except.ok.inj h)
    exact ⟨hinv, (if_neg hno).symm, List.Subset.refl _, fun hyes => absurd hyes hno⟩
  case isFalse hcast =>
    have hyes : ReadsCast w g flagged need t := by
      rw [hreads]
      simpa using hcast
    rw [if_pos hyes]
    rcases hinv.made t need with ⟨hnone, hno⟩ | ⟨hsome, hhas⟩
    · simp only [hnone] at h
      split at h
      case h_1 => cases h
      case h_2 info _ =>
        obtain ⟨rfl, rfl⟩ := Prod.mk.inj (Except.ok.inj h)
        refine ⟨hinv.addCast hfree hdone ht hknown hneed hyes hno info, rfl,
          subset_append_left _ _, fun _ => ?_⟩
        exact ⟨_, mem_append_right _ (mem_singleton_self _), rfl, rfl⟩
    · simp only [hsome] at h
      obtain ⟨rfl, rfl⟩ := Prod.mk.inj (Except.ok.inj h)
      exact ⟨hinv, rfl, List.Subset.refl _, fun _ => hhas⟩

/-- The loop over the inputs of an op. -/
theorem CastInv.readAll (hneed : IsPrecision need) {ts ins : List String}
    (hts : ∀ t ∈ ts, t ∈ g.tensors.keys ∧ t ∈ g.given ++ writesOf done)
    (h : ts.foldlM (readStep w (storedF32 g flagged) need) (s, []) = .ok (s', ins)) :
    CastInv w g flagged done s' ∧ ins = ts.map (readName w g flagged need) ∧
      ∀ t ∈ ts, ReadsCast w g flagged need t → HasCast s'.casts need t := by
  have hrun := foldlM_induction
    (P := fun read acc => (∀ t ∈ read, t ∈ ts) → CastInv w g flagged done acc.1 ∧
      acc.2 = read.map (readName w g flagged need) ∧
        ∀ t ∈ read, ReadsCast w g flagged need t → HasCast acc.1.casts need t)
    ?_ (fun _ => ⟨hinv, rfl, fun t ht => by cases ht⟩) h
  · exact hrun fun _ ht => ht
  rintro read t ⟨s₁, ins₁⟩ ⟨s₂, ins₂⟩ ih hstep hsub
  obtain ⟨hinv₁, rfl, hused⟩ := ih fun u hu => hsub u (mem_append_left _ hu)
  obtain ⟨hkey, hknown⟩ := hts t (hsub t (by simp))
  obtain ⟨⟨s₃, x⟩, hread, hstep⟩ := bind_eq_ok_iff.mp hstep
  obtain ⟨rfl, rfl⟩ := Prod.mk.inj (Except.ok.inj hstep)
  obtain ⟨hinv₂, rfl, hsub₂, hcast⟩ := hinv₁.readAs hfree hdone hkey hknown hneed hread
  refine ⟨hinv₂, by simp, ?_⟩
  intro u hu hreads
  rcases mem_append.mp hu with hold | hnew
  · obtain ⟨c, hc, heq⟩ := hused u hold hreads
    exact ⟨c, hsub₂ hc, heq⟩
  · rw [mem_singleton] at hnew
    exact hnew ▸ hcast (hnew ▸ hreads)

end

/-- The loop over the ops. -/
theorem CastInv.rewriteOp {rest : List (PolicyOp α)} {o : PolicyOp α} (hord : g.Ordered)
    (hsplit : g.ops = done ++ o :: rest) (hinv : CastInv w g flagged done s)
    (hfree : CastNamesFree g)
    (h : PrecisionPolicy.rewriteOp w (storedF32 g flagged) flagged s o = .ok s') :
    CastInv w g flagged (done ++ [o]) s' := by
  have hlisted : ∀ o' ∈ done ++ [o], ∀ t ∈ o'.inputs, t ∈ g.tensors.keys := by
    intro o' ho' t ht
    refine hord.listed o' ?_ t (mem_append_left _ ht)
    rw [hsplit, append_cons]
    exact mem_append_left _ ho'
  have hdone : ∀ o' ∈ done, ∀ t ∈ o'.inputs, t ∈ g.tensors.keys :=
    fun o' ho' => hlisted o' (mem_append_left _ ho')
  unfold PrecisionPolicy.rewriteOp at h
  split at h
  case isTrue halias =>
    rw [← Except.ok.inj h]
    have hop : rewritten w g flagged o = o := if_pos halias
    exact {
      rewrites := by
        have hnext := hinv.rewrites.op o
        rwa [hop] at hnext
      old := hinv.old
      new := hinv.new
      keys := hinv.keys
      sources := hinv.sources
      made := hinv.made
      once := hinv.once
      placed := fun c hc => (hinv.placed c hc).append _
      used := by
        intro o' ho' hno t ht hreads
        rcases mem_append.mp ho' with hold | hnew
        · exact hinv.used o' hold hno t ht hreads
        · rw [mem_singleton.mp hnew, halias] at hno
          cases hno }
  case isFalse halias =>
    obtain ⟨⟨s₁, ins⟩, hread, h⟩ := bind_eq_ok_iff.mp h
    rw [← Except.ok.inj h]
    have hts : ∀ t ∈ o.inputs, t ∈ g.tensors.keys ∧ t ∈ g.given ++ writesOf done :=
      fun t ht => ⟨hlisted o (by simp) t ht, (hsplit ▸ hord.known).of_append ht⟩
    obtain ⟨hinv₁, rfl, hused⟩ :=
      hinv.readAll hfree hdone (isPrecision_needOf flagged o) hts hread
    have hop : rewritten w g flagged o = { o.renamed flagged with
        inputs := o.inputs.map (readName w g flagged (needOf flagged o)) } := if_neg halias
    exact {
      rewrites := hop ▸ hinv₁.rewrites.op o
      old := hinv₁.old
      new := hinv₁.new
      keys := hinv₁.keys
      sources := hinv₁.sources
      made := hinv₁.made
      once := hinv₁.once
      placed := fun c hc => (hinv₁.placed c hc).append _
      used := by
        intro o' ho' hno t ht hreads
        rcases mem_append.mp ho' with hold | hnew
        · exact hinv₁.used o' hold hno t ht hreads
        · rw [mem_singleton] at hnew
          exact hnew ▸ hused t (hnew ▸ ht) (hnew ▸ hreads) }

/-- Behind the loop. -/
theorem castInv_of_run (hord : g.Ordered) (hfree : CastNamesFree g)
    (h : g.ops.foldlM (rewriteOp w (storedF32 g flagged) flagged) ⟨g.tensors, [], [], PyDict.empty⟩ = .ok s)
    :
    CastInv w g flagged g.ops s := by
  have hinit : CastInv w g flagged [] ⟨g.tensors, [], [], PyDict.empty⟩ := {
    rewrites := .nil
    old := fun _ _ => rfl
    new := fun c hc => by cases hc
    keys := fun _ => .inl
    sources := fun c hc => by cases hc
    made := fun t need => .inl ⟨rfl, by simp [HasCast]⟩
    once := nodup_nil
    placed := fun c hc => by cases hc
    used := fun o ho => by cases ho }
  have hrun := foldlM_induction
    (P := fun done s => done <+: g.ops → CastInv w g flagged done s) ?_ (fun _ => hinit) h
  · exact hrun prefix_rfl
  rintro done o s₁ s₂ ih hstep ⟨rest, hsplit⟩
  have hsplit' : g.ops = done ++ o :: rest := by rw [← hsplit, append_assoc]; rfl
  exact (ih ⟨o :: rest, hsplit'.symm⟩).rewriteOp hord hsplit' hfree hstep

end

/-! ### The policy -/

variable {p : PolicyInput α ν}

/-- The tensors above the limit. -/
def PolicyInput.flagged (p : PolicyInput α ν) : List String := flaggedTensors p.stats p.limit

/-- The graph of a half precision model, and the same graph in single precision. -/
@[mk_iff]
structure PolicyInput.WellFormed (p : PolicyInput α ν) : Prop where
  ordered : p.g16.Ordered
  oneBase : ∀ o ∈ p.g16.ops, o.isAlias = true → o.inputs.length = 1
  typed16 : Typed (IsFloat p.w16 p.g16) p.g16
  typed32 : Typed (IsFloat p.w32 p.g32) p.g32
  /-- The two graphs have the same float tensors, each in its precision. -/
  floats : ∀ t ∈ p.g16.tensors.keys, IsFloat p.w16 p.g16 t ↔ IsFloat p.w32 p.g32 t
  half : ∀ t ∈ p.g16.tensors.keys, IsFloat p.w16 p.g16 t → dtypeOf p.g16.tensors t = some "f16"
  single : ∀ t ∈ p.g32.tensors.keys, IsFloat p.w32 p.g32 t → dtypeOf p.g32.tensors t = some "f32"
  /-- The graph in single precision has no half precision kinds. -/
  plain : ∀ o ∈ p.g32.ops, strip o.op = o.op
  /-- There are no kernels for views. -/
  noKernel : ∀ kind ∈ aliasOps, p.kernelSpecs kind = false

instance (p : PolicyInput α ν) : Decidable p.WellFormed :=
  decidable_of_iff' _ (PolicyInput.wellFormed_iff p)

/-- The outputs of the casts. -/
def PolicyResult.castOuts (r : PolicyResult α ν) : List String :=
  r.report.casts.map PolicyCast.out

/-- The tensor that a name stands for: a cast stands for its tensor. -/
def uncastName (casts : List PolicyCast) (x : String) : String :=
  match casts.find? fun c => c.out = x with
  | some c => c.tensor
  | none => x

/-- The ops without the casts, which read the tensors that they had read. -/
def undoCasts (casts : List PolicyCast) (ops : List (PolicyOp α)) : List (PolicyOp α) :=
  (ops.filter fun o => o.outputs ∉ casts.map fun c => [c.out]).map fun o =>
    { o with inputs := o.inputs.map (uncastName casts) }

/-- A tensor that is no view. -/
def PolicyGraph.IsRoot (g : PolicyGraph α) (b : String) : Prop :=
  ∀ o ∈ g.ops, o.isAlias = true → b ∉ o.outputs

/-- What is promised of the result. -/
structure IslandIr (p : PolicyInput α ν) (r : PolicyResult α ν) : Prop where
  /-- The dtypes fit the ops. -/
  typed : Typed (fun t => IsFloat p.w16 p.g16 t ∨ t ∈ r.castOuts) r.graph
  /-- A tensor has one cast to a dtype. -/
  castOnce : (r.report.casts.map fun c => (c.tensor, c.toDtype)).Nodup
  castPlaced : ∀ c ∈ r.report.casts, Placed p.g16 r.graph.ops c
  /-- Integer tensors keep their dtype, where no island stores them. -/
  integers : ∀ t ∈ p.g16.tensors.keys, ¬IsFloat p.w16 p.g16 t →
    ¬IslandTensor p.flagged p.g16 t → dtypeOf r.graph.tensors t = dtypeOf p.g16.tensors t
  /-- A tensor above the limit that is no input is not stored in half precision, and neither are its
  views. Casts are apart. -/
  above : ∀ b t, ReflTransGen (ViewOf p.g16) b t → p.g16.IsRoot b → b ∈ p.flagged →
    b ∉ p.g16.inputs → dtypeOf r.graph.tensors t = some "f16" → t ∈ r.castOuts
  /-- Without the casts, the ops are those of the graph, and the islands have single precision
  kinds. -/
  undone : undoCasts r.report.casts r.graph.ops = p.g16.ops.map (PolicyOp.renamed p.flagged)

/-- What passes the checks has one structure, and kernels for the ops of the islands. -/
theorem flag_spec {flagged : List String} (h : flag p = .ok flagged) :
    structureOf p.g16 = structureOf p.g32 ∧ p.g16.tensors.keys ⊆ p.g32.tensors.keys ∧
      flagged = p.flagged ∧
      ∀ o ∈ p.g16.ops, inIsland p.flagged o = true → p.kernelSpecs (strip o.op) = true := by
  unfold flag at h
  rw [ite_error_eq_ok_iff, not_or, not_not, not_not] at h
  obtain ⟨⟨hsame, hkeys, -⟩, h⟩ := h
  obtain ⟨-, h⟩ := ite_error_eq_ok_iff.mp h
  split at h
  case h_1 => cases h
  case h_2 hkinds =>
    refine ⟨hsame, hkeys, (Except.ok.inj h).symm, ?_⟩
    intro o ho hisland
    have hfound := find?_eq_none.mp hkinds o (mem_filter.mpr ⟨ho, hisland⟩)
    simpa using hfound

/-- The graph that is returned is that of the loop. -/
theorem apply_spec {r : PolicyResult α ν} (h : apply p = .ok r) :
    flag p = .ok p.flagged ∧
      ∃ s, p.g16.ops.foldlM (rewriteOp p.w16 (storedF32 p.g16 p.flagged) p.flagged)
          ⟨p.g16.tensors, [], [], PyDict.empty⟩ = .ok s ∧
        r.graph = { p.g16 with
          ops := s.newOps, tensors := retype (storedF32 p.g16 p.flagged) s.tens } ∧
        r.report.casts = s.casts := by
  obtain ⟨flagged, hflag, h⟩ := bind_eq_ok_iff.mp h
  obtain ⟨s, hloop, h⟩ := bind_eq_ok_iff.mp h
  obtain ⟨weights, -, h⟩ := bind_eq_ok_iff.mp h
  obtain ⟨output, -, h⟩ := bind_eq_ok_iff.mp h
  have hflagged := (flag_spec hflag).2.2.1
  subst hflagged
  rw [← Except.ok.inj h]
  exact ⟨hflag, s, hloop, rfl, rfl⟩

/-! ### Dtypes of the result -/

variable {s32 : List String} {tens : PyDict String (PolicyTensor α)}

theorem dtypeOf_retype_of_mem (ht : t ∈ s32) (hkey : t ∈ tens.keys) :
    dtypeOf (retype s32 tens) t = some "f32" := by
  obtain ⟨info, hinfo⟩ := mem_keys_iff.mp hkey
  rw [dtypeOf, retype, get?_mapItems, hinfo]
  simp [ht]

theorem dtypeOf_retype_of_notMem (ht : t ∉ s32) : dtypeOf (retype s32 tens) t = dtypeOf tens t := by
  rw [dtypeOf, retype, get?_mapItems, dtypeOf]
  cases tens.get? t with
  | none => rfl
  | some info => simp [ht]

variable {o : PolicyOp α}

section
variable (hwf : p.WellFormed) (hflag : flag p = .ok p.flagged) (ho : o ∈ p.g16.ops)
include hwf hflag ho

/-- An op of an island is in the other graph, with its kind in single precision. -/
theorem PolicyInput.WellFormed.exists_single (hisland : inIsland p.flagged o = true) :
    ∃ o' ∈ p.g32.ops, o'.op = strip o.op ∧ o'.inputs = o.inputs ∧ o'.outputs = o.outputs ∧
      o'.isAlias = false := by
  obtain ⟨hsame, -, -, hkernels⟩ := flag_spec hflag
  have hmem : (o.name, strip o.op, o.inputs, o.outputs) ∈ structureOf p.g32 :=
    hsame ▸ mem_map_of_mem ho
  obtain ⟨o', ho', heq⟩ := mem_map.mp hmem
  simp only [Prod.mk.injEq, hwf.plain o' ho'] at heq
  obtain ⟨-, hop, hin, hout⟩ := heq
  refine ⟨o', ho', hop, hin, hout, ?_⟩
  have hkernel := hkernels o ho hisland
  rw [← hop] at hkernel
  simp only [PolicyOp.isAlias, decide_eq_false_iff_not]
  intro halias
  rw [hwf.noKernel o'.op halias] at hkernel
  cases hkernel

/-- The kind of an op in the result has the precision of the op. -/
theorem PolicyInput.WellFormed.needOf_eq (halias : o.isAlias = false)
    (hfloat : IsFloat p.w16 p.g16 t) :
    (t ∈ o.inputs → needOf p.flagged o = readDtype (o.renamed p.flagged).op) ∧
      (t ∈ o.outputs → needOf p.flagged o = writeDtype (o.renamed p.flagged).op) := by
  unfold needOf PolicyOp.renamed
  have hkey : t ∈ o.inputs ++ o.outputs → t ∈ p.g16.tensors.keys := hwf.ordered.listed o ho t
  split
  case isTrue hisland =>
    obtain ⟨o', ho', hop, hin, hout, halias'⟩ := hwf.exists_single hflag ho hisland
    have hsingle : t ∈ o.inputs ++ o.outputs → IsFloat p.w32 p.g32 t ∧
        dtypeOf p.g32.tensors t = some "f32" := by
      intro ht
      have hfloat' := (hwf.floats t (hkey ht)).mp hfloat
      exact ⟨hfloat', hwf.single t ((flag_spec hflag).2.1 (hkey ht)) hfloat'⟩
    constructor
    · intro ht
      obtain ⟨hfloat', hdtype⟩ := hsingle (mem_append_left _ ht)
      have hread := hwf.typed32.reads o' ho' halias' t (hin ▸ ht) hfloat'
      rw [hdtype, hop] at hread
      exact Option.some.inj hread
    · intro ht
      obtain ⟨hfloat', hdtype⟩ := hsingle (mem_append_right _ ht)
      have hwrite := hwf.typed32.writes o' ho' halias' t (hout ▸ ht) hfloat'
      rw [hdtype, hop] at hwrite
      exact Option.some.inj hwrite
  case isFalse =>
    constructor
    · intro ht
      have hread := hwf.typed16.reads o ho halias t ht hfloat
      rw [hwf.half t (hkey (mem_append_left _ ht)) hfloat] at hread
      exact Option.some.inj hread
    · intro ht
      have hwrite := hwf.typed16.writes o ho halias t ht hfloat
      rw [hwf.half t (hkey (mem_append_right _ ht)) hfloat] at hwrite
      exact Option.some.inj hwrite

/-- The ops of the islands are no views afterwards. -/
theorem PolicyInput.WellFormed.isAlias_rewritten :
    (rewritten p.w16 p.g16 p.flagged o).isAlias = o.isAlias := by
  cases halias : o.isAlias with
  | true => rw [rewritten_of_isAlias _ _ _ halias, halias]
  | false =>
    rw [rewritten_of_not_isAlias _ _ _ halias]
    by_cases hisland : inIsland p.flagged o = true
    · obtain ⟨o', -, hop, -, -, hview⟩ := hwf.exists_single hflag ho hisland
      simpa [PolicyOp.renamed, PolicyOp.isAlias, hisland, hop] using hview
    · simpa [PolicyOp.renamed, PolicyOp.isAlias, hisland] using halias

end

theorem readDtype_castKind (h : IsPrecision need) (stored : String) (hstored : IsPrecision stored)
    (hne : stored ≠ need) : readDtype (castKind need) = stored := by
  rcases h with rfl | rfl <;> rcases hstored with rfl | rfl
  · exact absurd rfl hne
  · decide
  · decide
  · exact absurd rfl hne

theorem writeDtype_castKind (h : IsPrecision need) :
    writeDtype (castKind need) = need := by
  rcases h with rfl | rfl <;> decide

section
variable {w : PyDict String (NpArray ν)} {g : PolicyGraph α} {flagged : List String}
  {s : CastState α} {done : List (PolicyOp α)}

/-- A tensor of the graph is in single precision if an island stores it, and as it was otherwise. -/
theorem CastInv.dtypeOf_old (hinv : CastInv w g flagged done s) {t : String}
    (ht : t ∈ g.tensors.keys) :
    dtypeOf (retype (storedF32 g flagged) s.tens) t =
      if t ∈ storedF32 g flagged then some "f32" else dtypeOf g.tensors t := by
  have hget := hinv.old t ht
  split
  case isTrue hmem =>
    apply dtypeOf_retype_of_mem hmem
    rw [mem_keys_iff, hget]
    exact mem_keys_iff.mp ht
  case isFalse hmem =>
    rw [dtypeOf_retype_of_notMem hmem, dtypeOf, hget]
    rfl

/-- The output of a cast has the dtype of the cast. -/
theorem CastInv.dtypeOf_cast (hinv : CastInv w g flagged done s) (hord : g.Ordered)
    (hfree : CastNamesFree g) {c : PolicyCast} (hc : c ∈ s.casts) :
    dtypeOf (retype (storedF32 g flagged) s.tens) c.out = some c.toDtype := by
  obtain ⟨hkey, hprec, -⟩ := hinv.sources c hc
  have hnot : c.out ∉ storedF32 g flagged := fun hmem =>
    hfree.notMem hkey hprec (mem_keys_of_mem_islandTensors hord hmem)
  rw [dtypeOf_retype_of_notMem hnot]
  exact hinv.new c hc

/-- What an op reads has the dtype of the op. -/
theorem CastInv.dtypeOf_readName (hinv : CastInv w g flagged g.ops s) (hord : g.Ordered)
    (hfree : CastNamesFree g)
    (hhalf : ∀ t ∈ g.tensors.keys, IsFloat w g t → dtypeOf g.tensors t = some "f16")
    {o : PolicyOp α} (ho : o ∈ g.ops) (halias : o.isAlias = false) {t : String} (ht : t ∈ o.inputs)
    (hfloat : IsFloat w g t) :
    dtypeOf (retype (storedF32 g flagged) s.tens) (readName w g flagged (needOf flagged o) t) =
      some (needOf flagged o) := by
  have hkey := hord.listed o ho t (mem_append_left _ ht)
  unfold readName
  split
  case isTrue hreads =>
    obtain ⟨c, hc, rfl, hdtype⟩ := hinv.used o ho halias t ht hreads
    rw [← hdtype]
    exact hinv.dtypeOf_cast hord hfree hc
  case isFalse hstays =>
    have hstored : storedAs (storedF32 g flagged) t = needOf flagged o := by
      by_contra hne
      exact hstays ⟨hfloat, hne⟩
    rw [hinv.dtypeOf_old hkey, ← hstored, storedAs]
    split
    · rfl
    · exact hhalf t hkey hfloat

end

/-! ### The promise -/

section
variable {s : CastState α}

/-- The dtypes of the result fit its ops. -/
theorem CastInv.typed (hwf : p.WellFormed) (hfree : CastNamesFree p.g16)
    (hflag : flag p = .ok p.flagged) (hinv : CastInv p.w16 p.g16 p.flagged p.g16.ops s) :
    Typed (fun t => IsFloat p.w16 p.g16 t ∨ t ∈ s.casts.map PolicyCast.out) { p.g16 with
      ops := s.newOps, tensors := retype (storedF32 p.g16 p.flagged) s.tens } := by
  have hord := hwf.ordered
  -- a name of a tensor is no output of a cast
  have hold : ∀ t ∈ p.g16.tensors.keys, t ∉ s.casts.map PolicyCast.out := by
    intro t ht hout
    obtain ⟨c, hc, rfl⟩ := mem_map.mp hout
    obtain ⟨hkey, hprec, -⟩ := hinv.sources c hc
    exact hfree.notMem hkey hprec ht
  constructor
  case reads =>
    intro o' ho' halias x hx hfloat
    rcases hinv.rewrites.mem_iff.mp ho' with ⟨c, hc, rfl⟩ | ⟨o, ho, rfl⟩
    · obtain ⟨hkey, hprec, hfloat', hne⟩ := hinv.sources c hc
      rw [PolicyCast.toOp, mem_singleton] at hx
      show dtypeOf _ x = some (readDtype (castKind c.toDtype))
      rw [hx, readDtype_castKind hprec _ (isPrecision_storedAs _ _) hne, hinv.dtypeOf_old hkey,
        storedAs]
      split
      · rfl
      · exact hwf.half _ hkey hfloat'
    · rw [hwf.isAlias_rewritten hflag ho] at halias
      rw [rewritten_of_not_isAlias _ _ _ halias] at hx ⊢
      obtain ⟨t, ht, rfl⟩ := mem_map.mp hx
      have hkey := hord.listed o ho t (mem_append_left _ ht)
      have hfloat' : IsFloat p.w16 p.g16 t := by
        by_contra hno
        have hname : readName p.w16 p.g16 p.flagged (needOf p.flagged o) t = t :=
          if_neg fun hreads => hno hreads.1
        rw [hname] at hfloat
        exact hfloat.elim hno (hold t hkey)
      rw [hinv.dtypeOf_readName hord hfree hwf.half ho halias ht hfloat']
      exact congrArg some ((hwf.needOf_eq hflag ho halias hfloat').1 ht)
  case writes =>
    intro o' ho' halias x hx hfloat
    rcases hinv.rewrites.mem_iff.mp ho' with ⟨c, hc, rfl⟩ | ⟨o, ho, rfl⟩
    · rw [PolicyCast.toOp, mem_singleton] at hx
      show dtypeOf _ x = some (writeDtype (castKind c.toDtype))
      rw [hx, writeDtype_castKind (hinv.sources c hc).2.1]
      exact hinv.dtypeOf_cast hord hfree hc
    · rw [outputs_rewritten] at hx
      have hkey := hord.listed o ho x (mem_append_right _ hx)
      have hfloat' := hfloat.resolve_right (hold x hkey)
      rw [hwf.isAlias_rewritten hflag ho] at halias
      rw [rewritten_of_not_isAlias _ _ _ halias]
      show dtypeOf _ x = some (writeDtype (o.renamed p.flagged).op)
      rw [← (hwf.needOf_eq hflag ho halias hfloat').2 hx, hinv.dtypeOf_old hkey, needOf]
      simp only [mem_islandTensors_of_writes hord ho halias hx]
      split
      · rfl
      · exact hwf.half x hkey hfloat'
  case views =>
    intro o' ho' halias b hb t ht
    rcases hinv.rewrites.mem_iff.mp ho' with ⟨c, hc, rfl⟩ | ⟨o, ho, rfl⟩
    · exfalso
      revert halias
      rcases (hinv.sources c hc).2.1 with heq | heq <;>
        simp [PolicyOp.isAlias, PolicyCast.toOp, castKind, aliasOps, heq]
    · rw [hwf.isAlias_rewritten hflag ho] at halias
      rw [rewritten_of_isAlias _ _ _ halias] at hb ht
      obtain ⟨base, hbase⟩ := length_eq_one_iff.mp (hwf.oneBase o ho halias)
      rw [hbase, mem_singleton] at hb
      subst hb
      rw [hinv.dtypeOf_old (hord.listed o ho t (mem_append_right _ ht)),
        hinv.dtypeOf_old (hord.listed o ho b (by simp [hbase]))]
      simp only [mem_islandTensors_view hord ho halias hbase ht]
      split
      · rfl
      · exact hwf.typed16.views o ho halias b (by simp [hbase]) t ht

/-- Without the casts, the ops are those of the graph. -/
theorem CastInv.undone {w : PyDict String (NpArray ν)} {g : PolicyGraph α} {flagged : List String}
    (hord : g.Ordered) (hfree : CastNamesFree g) (hinv : CastInv w g flagged g.ops s) :
    undoCasts s.casts s.newOps = g.ops.map (PolicyOp.renamed flagged) := by
  have hold : ∀ t ∈ g.tensors.keys, ∀ c ∈ s.casts, c.out ≠ t := by
    rintro t ht c hc rfl
    obtain ⟨hkey, hprec, -⟩ := hinv.sources c hc
    exact hfree.notMem hkey hprec ht
  unfold undoCasts
  rw [hinv.rewrites.filter]
  case hcast =>
    intro c hc
    simp only [decide_eq_false_iff_not, not_not]
    exact mem_map_of_mem hc
  case hop =>
    intro o ho
    rw [outputs_rewritten, decide_eq_true_eq]
    intro hout
    obtain ⟨c, hc, heq⟩ := mem_map.mp hout
    exact hold c.out (hord.listed o ho _ (mem_append_right _ (by simp [← heq]))) c hc rfl
  rw [List.map_map]
  apply map_congr_left
  intro o ho
  rw [Function.comp_apply]
  have huncast : ∀ t ∈ o.inputs, uncastName s.casts t = t := by
    intro t ht
    have hnone : s.casts.find? (fun c => c.out = t) = none := by
      rw [find?_eq_none]
      intro c hc
      simpa using hold t (hord.listed o ho t (mem_append_left _ ht)) c hc
    simp [uncastName, hnone]
  cases halias : o.isAlias with
  | true =>
    have hisland : inIsland flagged o = false := by simp [inIsland, halias]
    simp [rewritten_of_isAlias _ _ _ halias, PolicyOp.renamed, hisland, map_congr_left huncast]
  | false =>
    rw [rewritten_of_not_isAlias _ _ _ halias]
    have hback : ∀ t ∈ o.inputs,
        uncastName s.casts (readName w g flagged (needOf flagged o) t) = t := by
      intro t ht
      unfold readName
      split
      case isFalse => exact huncast t ht
      case isTrue hreads =>
        obtain ⟨c, hc, rfl, hdtype⟩ := hinv.used o ho halias t ht hreads
        rw [← hdtype]
        unfold uncastName
        split
        case h_1 c' hfound =>
          have heq : c'.out = castName c.tensor c.toDtype := by
            simpa using find?_some hfound
          exact (castName_inj (hinv.sources c' (mem_of_find?_eq_some hfound)).2.1
            (hinv.sources c hc).2.1 heq).1
        case h_2 hnone =>
          exact absurd (find?_eq_none.mp hnone c hc) (by simp [PolicyCast.out])
    simp [List.map_map, Function.comp_def, map_congr_left hback, PolicyOp.renamed]

end

/-- A tensor above the limit that is no input is stored in single precision, with its views. -/
theorem islandTensor_of_root {flagged : List String} (hord : g.Ordered) {b : String}
    (hkey : b ∈ g.tensors.keys) (hroot : g.IsRoot b) (hflagged : b ∈ flagged)
    (hinput : b ∉ g.inputs) : IslandRoot flagged g b := by
  rcases hord.made b hkey with hgiven | hwritten
  · rcases mem_append.mp hgiven with hin | hconst
    · exact absurd hin hinput
    · exact .inl ⟨hflagged, (mem_filter.mp hconst).2⟩
  · obtain ⟨o, ho, hout⟩ := mem_writesOf.mp hwritten
    refine .inr ⟨o, ho, ?_, hout⟩
    have halias : o.isAlias = false := by
      by_contra hview
      exact hroot o ho (by simpa using hview) hout
    have hany : (o.inputs ++ o.outputs).any (fun t => t ∈ flagged) = true :=
      any_eq_true.mpr ⟨b, mem_append_right _ hout, by simpa using hflagged⟩
    rw [inIsland, halias, hany]
    rfl

/-- An op of a small graph. -/
def smallOp (name op : String) (inputs outputs : List String) : PolicyOp Unit :=
  ⟨name, op, inputs, outputs, .given ()⟩

/-- A graph with its tensors of four elements, each with its dtype, and its inputs and outputs. -/
def smallGraph (ops : List (PolicyOp Unit)) (dtypes : List (String × String))
    (inputs outputs : List String) : PolicyGraph Unit where
  ops := ops
  tensors := PyDict.ofList (dtypes.map fun td => (td.1, ⟨[4], some td.2, none, none⟩))
  inputs := inputs
  outputs := outputs

/-- The arguments of the policy for two graphs, the magnitudes of some tensors, and the kinds that
have kernels. -/
def smallInput (g16 g32 : PolicyGraph Unit) (stats : List (String × ℚ)) (kinds : List String) :
    PolicyInput Unit ℤ where
  g16 := g16
  w16 := PyDict.empty
  io16 := ⟨⟨false, [1, 2, 3, 4]⟩, ⟨false, [0, 0, 0, 0]⟩⟩
  g32 := g32
  w32 := PyDict.empty
  golden32 := some ⟨false, [0, 0, 0, 0]⟩
  limit := 32752
  stats := PyDict.ofList (stats.map fun tm => (tm.1, (tm.2, 0)))
  kernelSpecs := fun kind => kind ∈ kinds
  toFloat32 := id

/-- The exponential of an activation overflows. It is viewed, and added to the activation. -/
def expInput : PolicyInput Unit ℤ := smallInput
  (smallGraph [smallOp "relu" "relu_f16" ["x"] ["y"], smallOp "exp" "exp_f16" ["y"] ["z"],
      smallOp "view" "view" ["z"] ["v"], smallOp "add" "add_f16" ["v", "y"] ["out"]]
    [("x", "f16"), ("y", "f16"), ("z", "f16"), ("v", "f16"), ("out", "f16")] ["x"] ["out"])
  (smallGraph [smallOp "relu" "relu" ["x"] ["y"], smallOp "exp" "exp" ["y"] ["z"],
      smallOp "view" "view" ["z"] ["v"], smallOp "add" "add" ["v", "y"] ["out"]]
    [("x", "f32"), ("y", "f32"), ("z", "f32"), ("v", "f32"), ("out", "f32")] ["x"] ["out"])
  [("z", 40000)] ["relu", "exp", "add"]

/-- The indices of a maximum are integers. The input overflows. -/
def argmaxInput : PolicyInput Unit ℤ := smallInput
  (smallGraph [smallOp "argmax" "argmax_dim_f16" ["x"] ["i"]] [("x", "f16"), ("i", "i64")]
    ["x"] ["i"])
  (smallGraph [smallOp "argmax" "argmax_dim" ["x"] ["i"]] [("x", "f32"), ("i", "i64")] ["x"] ["i"])
  [("x", 40000)] ["argmax_dim"]

/-- The input overflows, and is viewed. -/
def viewInput : PolicyInput Unit ℤ := smallInput
  (smallGraph [smallOp "view" "view" ["x"] ["v"], smallOp "tanh" "tanh_f16" ["v"] ["out"]]
    [("x", "f16"), ("v", "f16"), ("out", "f16")] ["x"] ["out"])
  (smallGraph [smallOp "view" "view" ["x"] ["v"], smallOp "tanh" "tanh" ["v"] ["out"]]
    [("x", "f32"), ("v", "f32"), ("out", "f32")] ["x"] ["out"])
  [("x", 40000), ("v", 40000)] ["tanh"]

/-- A tensor has the name of a cast. -/
def takenInput : PolicyInput Unit ℤ := smallInput
  (smallGraph [smallOp "exp" "exp_f16" ["x"] ["z"], smallOp "relu" "relu_f16" ["x"] ["x__as_f32"]]
    [("x", "f16"), ("z", "f16"), ("x__as_f32", "f16")] ["x"] ["z"])
  (smallGraph [smallOp "exp" "exp" ["x"] ["z"], smallOp "relu" "relu" ["x"] ["x__as_f32"]]
    [("x", "f32"), ("z", "f32"), ("x__as_f32", "f32")] ["x"] ["z"])
  [("z", 40000)] ["exp", "relu"]

end ModelBlaster.PrecisionPolicy
