import PulseFit.Proofs.Prior.Reordering

/-!
# Proofs.Prior.Checks — the check of the order and the derived parameters

The check of the order walks along places in a list of values, while derived parameters are kept by
name.  Both go through the same steps: an assignment keeps the order exactly if each of its derived
parameters lies between zero and the width of the window (`satisfied_iff_constrained`), in any
arithmetic.  A step that is no number lies nowhere, so it breaks the order.
-/

namespace PulseFit.Prior

variable {α : Type} [Scalar α] {m : Model} {channels : List Channel} {b : Bounds α}
  {r r' : Prior α} {p : Assignment α} {value : Key → α}

/-! ## Steps -/

theorem map_fst_stepsAlong (value : Key → α) (numbers : List Nat) (key : Nat → Key)
    (name : Nat → String) :
    (stepsAlong value numbers key name).map (·.1) = numbers.tail.map name := by
  rw [stepsAlong, List.map_map, ← Chain.map_snd_pairs, List.map_map]
  rfl

/-- The derived parameters of a prior are named like the steps. -/
theorem map_fst_steps (m : Model) (channels : List Channel) (value : Key → α) :
    (steps m channels value).map (·.1) = channels.flatMap (stepNames m) := by
  rw [steps, List.map_flatMap]
  refine List.flatMap_congr fun ch _ => ?_
  rw [List.map_append, map_fst_stepsAlong, map_fst_stepsAlong, stepNames]

/-- The order is kept exactly if every step is between zero and the width of the window. -/
theorem ordered_iff_steps (hr : build? m channels b = some (.ok r)) (value : Key → α) :
    r.ordered ((modelKeys m channels).map value) = true ↔
      ∀ step ∈ steps m channels value, 0.0 ≤ step.2 ∧ step.2 ≤ b.width := by
  rw [ordered_iff hr]
  constructor
  · intro hordered step hstep
    obtain ⟨ch, hch, hstart | hresidual⟩ := mem_steps.mp hstep
    · obtain ⟨i, j, hpair, rfl⟩ := mem_stepsAlong.mp hstart
      exact hordered ch hch .start i j hpair
    · obtain ⟨i, j, hpair, rfl⟩ := mem_stepsAlong.mp hresidual
      exact hordered ch hch .residualBegin i j hpair
  · intro hsteps ch hch q i j hpair
    obtain ⟨k, hi, -⟩ := Chain.mem_pairs.mp hpair
    rcases Model.eq_of_mem_orderedPulses (List.mem_of_getElem? hi) with rfl | rfl
    · exact hsteps _ (mem_steps.mpr ⟨ch, hch, .inl (mem_stepsAlong.mpr ⟨i, j, hpair, rfl⟩)⟩)
    · exact hsteps _ (mem_steps.mpr ⟨ch, hch, .inr (mem_stepsAlong.mpr ⟨i, j, hpair, rfl⟩)⟩)

/-! ## Agreement -/

theorem Kept.ordered (h : Kept r r') (values : List α) :
    r'.ordered values = r.ordered values := by
  rw [Prior.ordered, Prior.ordered, h.chains]

/-- Where the order is broken, the density is zero. -/
theorem logAt_of_satisfied_eq_false (h : r.satisfied p = .ok false) :
    r.logAt p = .ok Scalar.negInfinity := by
  unfold satisfied at h
  unfold logAt
  cases hvalues : r.values p with
  | error e =>
    rw [hvalues] at h
    cases h
  | ok values =>
    rw [hvalues] at h
    have hordered : r.ordered values = false := Except.ok.inj h
    show Except.ok (r.logOfValues values) = _
    rw [logOfValues, hordered]
    rfl

/-- A prior that was built, after any attempts to overwrite distributions, and an assignment of all
its parameters, of whatever values.  Each derived parameter is there, and the order is kept exactly
if all are between zero and the width of the window.  If it is not, the density is zero. -/
theorem satisfied_iff_constrained (hr : build? m channels b = some (.ok r))
    {ds : List (String × Marginal α)} (hds : r.overwriteEach ds = r')
    (hp : ∀ name ∈ r'.names, name ∈ p) :
    ∃ ok q, r'.satisfied p = .ok ok ∧ r'.constrained p = .ok q ∧
      (∀ name ∈ r'.constraintNames, name ∈ q) ∧
      (ok = true ↔ ∀ name ∈ r'.constraintNames, ∀ x, q[name]? = some x →
        0.0 ≤ x ∧ x ≤ b.width) ∧
      (ok = false → r'.logAt p = .ok Scalar.negInfinity) := by
  have hkept : Kept r r' := hds ▸ overwriteEach_kept r ds
  let value (k : Key) : α := p.getD k.text 0.0
  have hvalues : r'.values p = .ok ((modelKeys m channels).map value) := by
    rw [values_eq_getD hp, hkept.keys, keys_of_build? hr]
  have hsatisfied : r'.satisfied p = .ok (r.ordered ((modelKeys m channels).map value)) := by
    rw [satisfied, hvalues]
    exact congrArg Except.ok (hkept.ordered _)
  have hentries : ∀ e ∈ r'.entries, p[e.name]? = some (value e.key) := fun e he =>
    Std.ExtTreeMap.getElem?_eq_some_getD (hp e.name (List.mem_map_of_mem he))
  have hnames : r'.constraintNames = (steps m channels value).map (·.1) := by
    rw [hkept.constraintNames, constraintNames_of_build? hr, map_fst_steps]
  refine ⟨_, _, hsatisfied, constrained_eq hr hkept hentries, ?_, ?_, fun hbroken => ?_⟩
  · rw [hnames, List.forall_mem_map]
    intro step hstep
    rw [Std.ExtTreeMap.mem_iff_isSome_getElem?, getElem?_foldl_steps hstep]
    rfl
  · rw [ordered_iff_steps hr, hnames, List.forall_mem_map]
    refine forall₂_congr fun step hstep => ?_
    simp only [getElem?_foldl_steps hstep, Option.some.injEq, forall_eq']
  · rw [hbroken] at hsatisfied
    exact logAt_of_satisfied_eq_false hsatisfied

/-- The pulse number as start, but that of the second pulse is no number. -/
noncomputable def lostSecond : Key → Exact
  | .shape .start 2 _ => .nan
  | .shape .start i _ => .real i
  | _ => .real 1

/-- Three pulses of which the second has no start, after the distribution of its scale was
overwritten and a name that is none of a parameter was tried. -/
theorem satisfied_iff_constrained_GGG :
    ∃ r r' q, build? ⟨false, [⟨.gaussian, none⟩, ⟨.gaussian, none⟩, ⟨.gaussian, none⟩], none⟩ [.a]
        tenBounds = some (.ok r) ∧
      r.overwriteEach [("scale_2_a", .uniform (.real 1) (.real 2) (.real 0)),
        ("phi_1_a", .uniform (.real 0) (.real 1) (.real 0))] = r' ∧
      r'.constrained (.ofPairs (r.entries.map fun e => (e.name, lostSecond e.key))) = .ok q ∧
      q["constraint_3_a"]? = some .nan ∧
      r'.satisfied (.ofPairs (r.entries.map fun e => (e.name, lostSecond e.key))) = .ok false ∧
      r'.logAt (.ofPairs (r.entries.map fun e => (e.name, lostSecond e.key))) =
        .ok Scalar.negInfinity := by
  obtain ⟨r, hr⟩ := exists_build? validate_tenBounds
    ⟨false, [⟨.gaussian, none⟩, ⟨.gaussian, none⟩, ⟨.gaussian, none⟩], none⟩ [.a]
  obtain ⟨r', hds⟩ : ∃ r', r.overwriteEach
      [("scale_2_a", .uniform (.real 1) (.real 2) (.real 0)),
        ("phi_1_a", .uniform (.real 0) (.real 1) (.real 0))] = r' := ⟨_, rfl⟩
  have hkept : Kept r r' := hds ▸ overwriteEach_kept r _
  let p : Assignment Exact := .ofPairs (r.entries.map fun e => (e.name, lostSecond e.key))
  have hentries : ∀ e ∈ r'.entries, p[e.name]? = some (lostSecond e.key) := by
    intro e he
    have hkey : e.key ∈ r.entries.map (·.key) := hkept.keys ▸ List.mem_map_of_mem he
    exact getElem?_ofPairs_entries lostSecond hkey
  have hp : ∀ name ∈ r'.names, name ∈ p := by
    intro name hname
    obtain ⟨e, he, rfl⟩ := List.mem_map.mp hname
    rw [Std.ExtTreeMap.mem_iff_isSome_getElem?, hentries e he]
    rfl
  obtain ⟨ok, q, hsatisfied, hq, -, hiff, hbroken⟩ := satisfied_iff_constrained hr hds hp
  have hstep : q["constraint_3_a"]? = some .nan := by
    obtain rfl := Except.ok.inj ((constrained_eq hr hkept hentries).symm.trans hq)
    have hname : startStepName .a 3 = "constraint_3_a" := by decide
    rw [← hname]
    exact (extendsBySteps_foldl _ _ _ p).start .a (by decide) 3 (by decide) (by decide)
  have hok : ok = false := by
    rw [Bool.eq_false_iff]
    intro hok
    have hname : "constraint_3_a" ∈ r'.constraintNames := by
      rw [hkept.constraintNames, constraintNames_of_build? hr]
      decide
    exact (hiff.mp hok _ hname .nan hstep).2
  exact ⟨r, r', q, hr, hds, hq, hstep, hok ▸ hsatisfied, hbroken hok⟩

end PulseFit.Prior
