import PulseFit.Proofs.Prior.Overwrite
import PulseFit.Proofs.Prior.Steps

/-!
# Proofs.Prior.Constraints — an assignment with its derived parameters

A prior adds the steps of its model to an assignment and nothing else (`constrained_eq`); leaving
out all derived names takes them away again (`withoutConstraints_constrained`).  What is missing is
reported in the order of the parameters.
-/

namespace PulseFit

namespace Assignment

variable {α : Type}

/-- No key begins like the name of a derived parameter, since no quantity does. -/
theorem isConstraint_text (k : Key) : isConstraint k.text = false := by
  rw [isConstraint, Key.text, String.toList_ofList, Bool.eq_false_iff, ne_eq,
    List.isPrefixOf_iff_prefix]
  intro hprefix
  have hhead : constraintMark.head? = k.chars.head? := by
    obtain ⟨rest, hrest⟩ := hprefix
    rw [← hrest]
    rfl
  revert hhead
  rcases k with q | ch | ⟨q, i, ch⟩
  · cases q <;> decide
  · simp [Key.chars]
    decide
  · cases q <;> simp [Key.chars] <;> decide

theorem getElem?_withoutConstraints (p : Assignment α) (name : String) :
    p.withoutConstraints[name]? = if isConstraint name then none else p[name]? := by
  rw [withoutConstraints, Std.ExtTreeMap.getElem?_filter']
  by_cases h : isConstraint name = true
  · simp [h]
  · cases p[name]? <;> simp [h, Option.filter]

/-- Without derived names there is nothing to leave out. -/
theorem withoutConstraints_eq_self {p : Assignment α} (h : ∀ name ∈ p, isConstraint name = false) :
    p.withoutConstraints = p := by
  refine Std.ExtTreeMap.ext_getElem? fun name => ?_
  rw [getElem?_withoutConstraints]
  by_cases hname : isConstraint name = true
  · have hnotMem : name ∉ p := by
      intro hmem
      rw [h name hmem] at hname
      cases hname
    rw [if_pos hname, Std.ExtTreeMap.getElem?_eq_none hnotMem]
  · rw [if_neg hname]

end Assignment

namespace Prior

open Assignment (isConstraint)

variable {α : Type}

/-! ## Values -/

section

variable {r : Prior α} {p : Assignment α}

theorem values_eq {value : Key → α} (h : ∀ e ∈ r.entries, p[e.name]? = some (value e.key)) :
    r.values p = .ok ((r.entries.map (·.key)).map value) := by
  rw [List.map_map]
  refine mapM_eq_pure_map fun e he => ?_
  rw [h e he]
  rfl

/-- An assignment of values to the keys of entries has them. -/
theorem getElem?_ofPairs_entries (value : Key → α) {entries : List (Entry α)} {k : Key}
    (hk : k ∈ entries.map (·.key)) :
    (Assignment.ofPairs (entries.map fun e => (e.name, value e.key)))[k.text]? =
      some (value k) := by
  have hmap : entries.map (fun e => (e.name, value e.key)) =
      (entries.map (·.key)).map fun k => (k.text, value k) := by
    rw [List.map_map]
    rfl
  rw [hmap]
  exact Assignment.getElem?_ofPairs_text value hk

/-- An assignment of all parameters has a list of values. -/
theorem values_eq_getD [Scalar α] (h : ∀ name ∈ r.names, name ∈ p) :
    r.values p = .ok ((r.entries.map (·.key)).map fun k => p.getD k.text 0.0) := by
  refine values_eq fun e he => ?_
  have hmem : e.name ∈ p := h e.name (List.mem_map_of_mem he)
  rw [Std.ExtTreeMap.getElem?_eq_some_getD hmem]
  rfl

/-- Each entry stands beside the value of its key. -/
theorem zip_values (value : Key → α) (entries : List (Entry α)) :
    entries.zip ((entries.map (·.key)).map value) = entries.map fun e => (e, value e.key) := by
  nth_rewrite 1 [← List.map_id entries]
  rw [List.map_map, List.zip_map']
  rfl

/-- Where there are values, no parameter is missing. -/
theorem mem_of_values_eq_ok {values : List α} (h : r.values p = .ok values) :
    ∀ e ∈ r.entries, e.name ∈ p := by
  intro e he
  obtain ⟨x, hx⟩ := exists_of_mapM_eq_ok h e he
  by_contra hmissing
  rw [Std.ExtTreeMap.getElem?_eq_none hmissing] at hx
  cases hx

/-- The first parameter that is missing is reported. -/
theorem values_eq_error {before after : List String} {name : String}
    (hnames : r.names = before ++ name :: after) (hbefore : ∀ s ∈ before, s ∈ p)
    (hname : name ∉ p) : r.values p = .error (.missingParameter name) := by
  obtain ⟨front, rest, hentries, rfl, hrest⟩ := List.map_eq_append_iff.mp hnames
  obtain ⟨e, back, rfl, rfl, -⟩ := List.map_eq_cons_iff.mp hrest
  unfold values
  rw [hentries]
  refine mapM_eq_error (fun d hd => ?_) ?_
  · have hmem : d.name ∈ p := hbefore d.name (List.mem_map_of_mem hd)
    obtain ⟨x, hx⟩ := Option.isSome_iff_exists.mp (Std.ExtTreeMap.mem_iff_isSome_getElem?.mp hmem)
    exact ⟨x, by rw [hx]⟩
  · rw [Std.ExtTreeMap.getElem?_eq_none hname]

end

variable [Scalar α] {m : Model} {channels : List Channel} {b : Bounds α} {r r' : Prior α}
  {p : Assignment α} {value : Key → α}

/-- The values of all parameters, by key. -/
theorem values_of_build? (hr : build? m channels b = some (.ok r))
    (hp : ∀ k ∈ modelKeys m channels, p[k.text]? = some (value k)) :
    r.values p = .ok ((modelKeys m channels).map value) := by
  rw [← keys_of_build? hr] at hp ⊢
  apply values_eq
  intro e he
  exact hp e.key (List.mem_map_of_mem he)

/-- The order is checked of the values by key. -/
theorem satisfied_eq (hr : build? m channels b = some (.ok r))
    (hp : ∀ k ∈ modelKeys m channels, p[k.text]? = some (value k)) :
    r.satisfied p = .ok (r.ordered ((modelKeys m channels).map value)) := by
  unfold satisfied
  rw [values_of_build? hr hp]
  rfl

/-! ## Derived parameters -/

/-- An assignment is extended by the steps of a model in channels: by the differences of
consecutive starts, by those of consecutive residuals, and by nothing else. -/
structure ExtendsBySteps (m : Model) (channels : List Channel) (value : Key → α)
    (p q : Assignment α) : Prop where
  start : ∀ ch ∈ channels, ∀ i, 2 ≤ i → i ≤ m.size →
    q[startStepName ch i]? =
      some (value (.shape .start i ch) - value (.shape .start (i - 1) ch))
  residual : ∀ ch ∈ channels, ∀ i j, (i, j) ∈ Chain.pairs m.residualChain →
    q[residualStepName ch j]? =
      some (value (.shape .residualBegin j ch) - value (.shape .residualBegin i ch))
  other : ∀ name,
    (∀ ch ∈ channels, ∀ i, 2 ≤ i → i ≤ m.size → name ≠ startStepName ch i) →
    (∀ ch ∈ channels, ∀ i j, (i, j) ∈ Chain.pairs m.residualChain →
      name ≠ residualStepName ch j) →
    q[name]? = p[name]?

/-- Every step is written with its value. -/
theorem getElem?_foldl_steps {step : String × α} (hstep : step ∈ steps m channels value)
    (p : Assignment α) :
    ((steps m channels value).foldl (fun p (name, x) => p.insert name x) p)[step.1]? =
      some step.2 :=
  Assignment.getElem?_foldl_insert (fun _ h heq => steps_unique h hstep heq)
    (.inl (List.mem_map_of_mem hstep))

/-- Writing the steps over an assignment extends it. -/
theorem extendsBySteps_foldl (m : Model) (channels : List Channel) (value : Key → α)
    (p : Assignment α) :
    ExtendsBySteps m channels value p
      ((steps m channels value).foldl (fun p (name, x) => p.insert name x) p) := by
  constructor
  case start =>
    intro ch hch i htwo hi
    have hpair : (i - 1, i) ∈ Chain.pairs (List.range' 1 m.size) :=
      Chain.mem_pairs_range'.mpr ⟨htwo, hi, rfl⟩
    exact getElem?_foldl_steps
      (mem_steps.mpr ⟨ch, hch, .inl (mem_stepsAlong.mpr ⟨i - 1, i, hpair, rfl⟩)⟩) p
  case residual =>
    intro ch hch i j hpair
    exact getElem?_foldl_steps
      (mem_steps.mpr ⟨ch, hch, .inr (mem_stepsAlong.mpr ⟨i, j, hpair, rfl⟩)⟩) p
  case other =>
    intro name hstart hresidual
    refine Assignment.getElem?_foldl_insert_of_notMem fun hname => ?_
    obtain ⟨step, hstep, rfl⟩ := List.mem_map.mp hname
    obtain ⟨ch, hch, hstep | hstep⟩ := mem_steps.mp hstep
    · obtain ⟨i, j, hpair, rfl⟩ := mem_stepsAlong.mp hstep
      obtain ⟨htwo, hj, -⟩ := Chain.mem_pairs_range'.mp hpair
      exact hstart ch hch j htwo hj rfl
    · obtain ⟨i, j, hpair, rfl⟩ := mem_stepsAlong.mp hstep
      exact hresidual ch hch i j hpair rfl

/-- All that is written over an assignment has a derived name. -/
theorem withoutConstraints_foldl (m : Model) (channels : List Channel) (value : Key → α)
    (p : Assignment α) :
    ((steps m channels value).foldl (fun p (name, x) => p.insert name x) p).withoutConstraints =
      p.withoutConstraints := by
  refine Std.ExtTreeMap.ext_getElem? fun name => ?_
  rw [Assignment.getElem?_withoutConstraints, Assignment.getElem?_withoutConstraints]
  by_cases hname : isConstraint name = true
  · rw [if_pos hname, if_pos hname]
  · rw [if_neg hname, if_neg hname]
    refine Assignment.getElem?_foldl_insert_of_notMem fun hmem => hname ?_
    obtain ⟨step, hstep, rfl⟩ := List.mem_map.mp hmem
    exact isConstraint_of_mem_steps hstep

/-- A prior, overwritten or not, writes the steps of its model over an assignment. -/
theorem constrained_eq (hr : build? m channels b = some (.ok r)) (hkept : Kept r r')
    (h : ∀ e ∈ r'.entries, p[e.name]? = some (value e.key)) :
    r'.constrained p =
      .ok ((steps m channels value).foldl (fun p (name, x) => p.insert name x) p) := by
  have hkeys : r'.entries.map (·.key) = modelKeys m channels :=
    hkept.keys.trans (keys_of_build? hr)
  rw [constrained, values_eq h, hkeys, hkept.chains, chains_of_build? hr]
  exact congrArg (fun steps => Except.ok (List.foldl _ p steps))
    (derived_chainsOf m channels b.width value)

/-- A prior that was built, overwritten any number of times, extends every assignment of all its
parameters by the steps of its model, which leaving out derived names takes away again; otherwise it
reports the first parameter that is missing.  No key has a derived name. -/
theorem constrained_steps [Scalar.LawfulOrder α] [Scalar.LawfulLog α] (m : Model)
    (channels : List Channel) {b : Bounds α} (hb : b.validate = .ok ()) :
    ∃ r, build? m channels b = some (.ok r) ∧
      (∀ ds r', r.overwriteAll ds = .ok r' →
        (∀ (p : Assignment α) (value : Key → α),
          (∀ e ∈ r'.entries, p[e.name]? = some (value e.key)) →
          ∃ q, r'.constrained p = .ok q ∧ ExtendsBySteps m channels value p q ∧
            q.withoutConstraints = p.withoutConstraints) ∧
        ∀ (p : Assignment α) before name after, r'.names = before ++ name :: after →
          (∀ s ∈ before, s ∈ p) → name ∉ p →
          r'.constrained p = .error (.missingParameter name)) ∧
      (∀ p : Assignment α, (∀ name ∈ p, isConstraint name = false) → p.withoutConstraints = p) ∧
      ∀ (m' : Model) (ch : Channel), ∀ k ∈ m'.keys ch, isConstraint k.text = false := by
  obtain ⟨r, hr⟩ := exists_build? hb m channels
  refine ⟨r, hr, fun ds r' hds => ⟨fun p value h => ?_, ?_⟩,
    fun p => Assignment.withoutConstraints_eq_self, fun _ _ k _ => Assignment.isConstraint_text k⟩
  · refine ⟨_, constrained_eq hr (overwriteAll_kept hds) h, ?_, ?_⟩
    · exact extendsBySteps_foldl m channels value p
    · exact withoutConstraints_foldl m channels value p
  · intro p before name after hnames hbefore hname
    rw [constrained, values_eq_error hnames hbefore hname]
    rfl

/-- Starts five apart, and residuals that begin at the squares of the pulse numbers. -/
noncomputable def spread : Key → Exact
  | .shape .start i _ => .real (5 * i)
  | .shape .residualBegin i _ => .real (i ^ 2)
  | _ => .real 0

/-- Three pulses, of which the first and the last have residuals, after overwriting a scale. -/
theorem constrained_steps_FsGXb :
    ∃ r r' q,
      build? ⟨false, [⟨.fred, some .sineGaussian⟩, ⟨.gaussian, none⟩, ⟨.fredx, some .bessel⟩], none⟩
        [.a, .b] (Bounds.ofWindow ⟨Exact.real 0, Exact.real 20⟩) = some (.ok r) ∧
      r.overwriteAll [("scale_2_a", .uniform (.real 1) (.real 2) (.real 0))] = .ok r' ∧
      r'.constrained (.ofPairs (r'.entries.map fun e => (e.name, spread e.key))) = .ok q ∧
      q["constraint_3_b"]? = some (Exact.real 15 - .real 10) ∧
      q["constraint_3_b_res"]? = some (Exact.real 9 - .real 1) := by
  have hb : (Bounds.ofWindow ⟨Exact.real 0, Exact.real 20⟩).validate = .ok () :=
    Bounds.validate_ofWindow (by norm_num)
  obtain ⟨r, hr, hall, -⟩ := constrained_steps
    ⟨false, [⟨.fred, some .sineGaussian⟩, ⟨.gaussian, none⟩, ⟨.fredx, some .bessel⟩], none⟩
    [.a, .b] hb
  have hscale : Key.shape .scale 2 .a ∈ r.entries.map (·.key) := by
    rw [keys_of_build? hr]
    decide
  obtain ⟨r', hr'⟩ := exists_overwrite hscale (by rintro i ⟨⟩; decide)
    (.uniform (.real 1) (.real 2) (.real 0))
  have hds : r.overwriteAll [("scale_2_a", .uniform (.real 1) (.real 2) (.real 0))] = .ok r' := by
    have hname : (Key.shape .scale 2 .a).text = "scale_2_a" := by decide
    rw [hname] at hr'
    rw [overwriteAll, List.foldlM_cons, hr']
    rfl
  have hvalues : ∀ e ∈ r'.entries, (Assignment.ofPairs
      (r'.entries.map fun e => (e.name, spread e.key)))[e.name]? = some (spread e.key) :=
    fun e he => getElem?_ofPairs_entries spread (List.mem_map_of_mem he)
  obtain ⟨q, hq, hsteps, -⟩ := (hall _ r' hds).1 _ spread hvalues
  refine ⟨r, r', q, hr, hds, hq, ?_, ?_⟩
  · have hstart := hsteps.start .b (by decide) 3 (by decide) (by decide)
    have hname : startStepName .b 3 = "constraint_3_b" := by decide
    rw [hname] at hstart
    rw [hstart]
    norm_num [spread]
  · have hresidual := hsteps.residual .b (by decide) 1 3 (by decide)
    have hname : residualStepName .b 3 = "constraint_3_b_res" := by decide
    rw [hname] at hresidual
    rw [hresidual]
    norm_num [spread]

end Prior

end PulseFit
