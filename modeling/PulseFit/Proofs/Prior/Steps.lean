import PulseFit.Proofs.Assignment
import PulseFit.Proofs.Prior.Build

/-!
# Proofs.Prior.Steps — the derived parameters of a prior

`steps` lists, channel by channel, the differences of neighbouring starts and of neighbouring
residuals, by name.  The chains of a prior refer to places in a list of values, their names to
numbers of pulses; a chain that was built from numbered keys derives exactly the differences of
their values (`derived_chainOf`).  No name is listed with two values (`steps_unique`), so the order
in which they are written does not matter.
-/

namespace PulseFit

/-! ## Neighbours -/

namespace Chain

variable {β γ : Type}

theorem mem_pairs {xs : List β} {x y : β} :
    (x, y) ∈ pairs xs ↔ ∃ i, xs[i]? = some x ∧ xs[i + 1]? = some y := by
  simp only [pairs, List.mem_iff_getElem?, List.getElem?_zip_eq_some, List.getElem?_tail]

theorem pairs_map (f : β → γ) (xs : List β) :
    pairs (xs.map f) = (pairs xs).map (Prod.map f f) := by
  rw [pairs, ← List.map_tail, List.zip_map, pairs]

theorem pairs_eq_nil {xs : List β} (h : ¬ 1 < xs.length) : pairs xs = [] := by
  match xs with
  | [] => rfl
  | [x] => rfl
  | x :: y :: xs => exact absurd (Nat.lt_add_of_pos_left (Nat.succ_pos xs.length)) h

/-- The later ones of all neighbours are all entries but the first. -/
theorem map_snd_pairs (xs : List β) : (pairs xs).map (·.2) = xs.tail := by
  have hlength : xs.tail.length ≤ xs.length := by
    rw [List.length_tail]
    omega
  exact List.map_snd_zip hlength

theorem rel_of_mem_pairs {R : β → β → Prop} {xs : List β} (h : xs.Pairwise R) {x y : β}
    (hpair : (x, y) ∈ pairs xs) : R x y := by
  obtain ⟨i, hx, hy⟩ := mem_pairs.mp hpair
  obtain ⟨hi, rfl⟩ := List.getElem?_eq_some_iff.mp hx
  obtain ⟨hi', rfl⟩ := List.getElem?_eq_some_iff.mp hy
  exact List.pairwise_iff_getElem.mp h i (i + 1) hi hi' (Nat.lt_succ_self i)

/-- What can be told of any two entries from the neighbours between them. -/
theorem pairwise_iff_pairs {R : β → β → Prop} [Trans R R R] {xs : List β} :
    xs.Pairwise R ↔ ∀ x y, (x, y) ∈ pairs xs → R x y := by
  refine ⟨fun h x y hpair => rel_of_mem_pairs h hpair, fun h => ?_⟩
  rw [← List.isChain_iff_pairwise, List.isChain_iff_getElem]
  intro i hi
  exact h _ _ (mem_pairs.mpr ⟨i, List.getElem?_eq_getElem (Nat.lt_of_succ_lt hi),
    List.getElem?_eq_getElem hi⟩)

/-- In a list without repetition an entry has one entry before it. -/
theorem eq_of_mem_pairs {xs : List β} (hxs : xs.Nodup) {x x' y : β} (h : (x, y) ∈ pairs xs)
    (h' : (x', y) ∈ pairs xs) : x = x' := by
  obtain ⟨i, hx, hy⟩ := mem_pairs.mp h
  obtain ⟨j, hx', hy'⟩ := mem_pairs.mp h'
  obtain ⟨hi, -⟩ := List.getElem?_eq_some_iff.mp hy
  have hij : i + 1 = j + 1 := (List.getElem?_inj hi hxs).mp (hy.trans hy'.symm)
  obtain rfl := Nat.succ.inj hij
  exact Option.some.inj (hx.symm.trans hx')

/-- Neighbours in a row of numbers are one apart. -/
theorem mem_pairs_range' {n i j : Nat} :
    (i, j) ∈ pairs (List.range' 1 n) ↔ 2 ≤ j ∧ j ≤ n ∧ i = j - 1 := by
  have hget (k x : Nat) : (List.range' 1 n)[k]? = some x ↔ k < n ∧ x = k + 1 := by
    by_cases hk : k < n
    · rw [List.getElem?_range' hk, Option.some.injEq, Nat.one_mul]
      omega
    · rw [List.getElem?_eq_none (by rw [List.length_range']; omega)]
      simp [hk]
  simp only [mem_pairs, hget]
  constructor
  · rintro ⟨k, ⟨-, rfl⟩, hk, rfl⟩
    omega
  · rintro ⟨hj, hn, rfl⟩
    exact ⟨j - 2, by omega⟩

variable {α : Type} [Scalar α]

/-- A chain holds exactly if every step along it is allowed. -/
theorem holds_iff {c : Chain α} {values : List α} :
    c.holds values = true ↔ ∀ i j, (i, j) ∈ pairs c.members →
      0.0 ≤ valueAt values j - valueAt values i ∧
        valueAt values j - valueAt values i ≤ c.limit := by
  rw [holds, differences, List.all_map, List.all_eq_true, Prod.forall]
  simp only [Function.comp_apply, allows, Bool.and_eq_true, decide_eq_true_eq]

/-- At the first place of a key stands its value. -/
theorem valueAt_idxOf {keys : List Key} (value : Key → α) {k : Key} (hk : k ∈ keys) :
    valueAt (keys.map value) (keys.idxOf k) = value k := by
  rw [valueAt, List.getD_eq_getElem?_getD, List.getElem?_map, List.getElem?_idxOf hk]
  rfl

/-- A chain over numbered places is named by its numbers and derives the differences of the values
there. -/
theorem derived_eq {numbers : List Nat} {place : Nat → Nat} {values : List α} {x : Nat → α}
    (h : ∀ i ∈ numbers, valueAt values (place i) = x i) (name : Nat → String) (limit : α) :
    derived ⟨numbers.map place, numbers.tail.map name, limit⟩ values =
      (pairs numbers).map fun (i, j) => (name j, x j - x i) := by
  have hdifferences : differences ⟨numbers.map place, numbers.tail.map name, limit⟩ values =
      (pairs numbers).map fun (i, j) => x j - x i := by
    rw [differences, pairs_map, List.map_map]
    refine List.map_congr_left fun pair hpair => ?_
    obtain ⟨k, hi, hj⟩ := mem_pairs.mp hpair
    show valueAt values (place pair.2) - valueAt values (place pair.1) = x pair.2 - x pair.1
    rw [h _ (List.mem_of_getElem? hi), h _ (List.mem_of_getElem? hj)]
  rw [derived, hdifferences, ← map_snd_pairs, List.map_map, List.zip_map']
  rfl

end Chain

namespace Prior

open Chain (pairs)

/-! ## Names -/

/-- The name of a step between starts says its channel and its pulse. -/
theorem startStepName_injective {ch ch' : Channel} {i j : Nat}
    (h : startStepName ch i = startStepName ch' j) : ch = ch' ∧ i = j := by
  obtain ⟨hbody, rfl⟩ := Key.eq_of_append_suffix (String.ofList_inj.mp h)
  have hdigits := congrArg (Nat.ofDigitChars 10 · 0) (List.append_cancel_left hbody)
  simp only [Nat.ofDigitChars_ten_toDigits] at hdigits
  exact ⟨rfl, hdigits⟩

/-- The name of a step between residuals is that between starts with an ending. -/
theorem residualStepName_eq (ch : Channel) (i : Nat) :
    residualStepName ch i = String.ofList ((startStepName ch i).toList ++ "_res".toList) := by
  rw [startStepName, String.toList_ofList]
  rfl

theorem residualStepName_injective {ch ch' : Channel} {i j : Nat}
    (h : residualStepName ch i = residualStepName ch' j) : ch = ch' ∧ i = j := by
  rw [residualStepName_eq, residualStepName_eq] at h
  have hstart := List.append_cancel_right (String.ofList_inj.mp h)
  exact startStepName_injective (String.toList_inj.mp hstart)

/-- No letter of a channel ends a name of the other kind. -/
theorem startStepName_ne_residualStepName (ch ch' : Channel) (i j : Nat) :
    startStepName ch i ≠ residualStepName ch' j := by
  intro h
  have hlast := congrArg List.getLast? (String.ofList_inj.mp h)
  simp at hlast
  cases ch <;> simp [Channel.letter] at hlast

theorem isConstraint_startStepName (ch : Channel) (i : Nat) :
    Assignment.isConstraint (startStepName ch i) = true := by
  rw [Assignment.isConstraint, startStepName, String.toList_ofList, List.isPrefixOf_iff_prefix,
    List.append_assoc]
  exact List.prefix_append ..

theorem isConstraint_residualStepName (ch : Channel) (i : Nat) :
    Assignment.isConstraint (residualStepName ch i) = true := by
  rw [Assignment.isConstraint, residualStepName, String.toList_ofList, List.isPrefixOf_iff_prefix,
    List.append_assoc, List.append_assoc]
  exact List.prefix_append ..

/-! ## Steps -/

variable {α : Type} [Scalar α] {m : Model} {channels : List Channel}

/-- The differences of the values of neighbours in a list of numbered keys. -/
def stepsAlong (value : Key → α) (numbers : List Nat) (key : Nat → Key) (name : Nat → String) :
    List (String × α) :=
  (pairs numbers).map fun (i, j) => (name j, value (key j) - value (key i))

/-- The differences of all starts and of all residuals in channels. -/
def steps (m : Model) (channels : List Channel) (value : Key → α) : List (String × α) :=
  channels.flatMap fun ch =>
    stepsAlong value (List.range' 1 m.size) (.shape .start · ch) (startStepName ch) ++
      stepsAlong value m.residualChain (.shape .residualBegin · ch) (residualStepName ch)

theorem mem_stepsAlong {value : Key → α} {numbers : List Nat} {key : Nat → Key}
    {name : Nat → String} {step : String × α} :
    step ∈ stepsAlong value numbers key name ↔
      ∃ i j, (i, j) ∈ pairs numbers ∧ step = (name j, value (key j) - value (key i)) := by
  simp only [stepsAlong, List.mem_map, Prod.exists, eq_comm]

theorem mem_steps {value : Key → α} {step : String × α} :
    step ∈ steps m channels value ↔ ∃ ch ∈ channels,
      step ∈ stepsAlong value (List.range' 1 m.size) (.shape .start · ch) (startStepName ch) ∨
      step ∈ stepsAlong value m.residualChain (.shape .residualBegin · ch)
        (residualStepName ch) := by
  simp only [steps, List.mem_flatMap, List.mem_append]

/-- A step is named by its later member. -/
theorem stepsAlong_unique {value : Key → α} {numbers : List Nat} (hnumbers : numbers.Nodup)
    {key : Nat → Key} {name : Nat → String} (hname : ∀ i j, name i = name j → i = j)
    {step step' : String × α} (h : step ∈ stepsAlong value numbers key name)
    (h' : step' ∈ stepsAlong value numbers key name) (heq : step.1 = step'.1) :
    step.2 = step'.2 := by
  obtain ⟨i, j, hpair, rfl⟩ := mem_stepsAlong.mp h
  obtain ⟨i', j', hpair', rfl⟩ := mem_stepsAlong.mp h'
  obtain rfl := hname j j' heq
  rw [Chain.eq_of_mem_pairs hnumbers hpair hpair']

/-- No step has two values. -/
theorem steps_unique {value : Key → α} {step step' : String × α}
    (h : step ∈ steps m channels value) (h' : step' ∈ steps m channels value)
    (heq : step.1 = step'.1) : step.2 = step'.2 := by
  obtain ⟨ch, -, hstep⟩ := mem_steps.mp h
  obtain ⟨ch', -, hstep'⟩ := mem_steps.mp h'
  -- the names say the channel and the kind of both steps
  rcases hstep with hstart | hresidual <;> rcases hstep' with hstart' | hresidual'
  · obtain ⟨i, j, -, rfl⟩ := mem_stepsAlong.mp hstart
    obtain ⟨i', j', -, rfl⟩ := mem_stepsAlong.mp hstart'
    obtain ⟨rfl, -⟩ := startStepName_injective heq
    exact stepsAlong_unique List.nodup_range' (fun _ _ h => (startStepName_injective h).2)
      hstart hstart' heq
  · obtain ⟨i, j, -, rfl⟩ := mem_stepsAlong.mp hstart
    obtain ⟨i', j', -, rfl⟩ := mem_stepsAlong.mp hresidual'
    exact absurd heq (startStepName_ne_residualStepName ch ch' j j')
  · obtain ⟨i, j, -, rfl⟩ := mem_stepsAlong.mp hresidual
    obtain ⟨i', j', -, rfl⟩ := mem_stepsAlong.mp hstart'
    exact absurd heq.symm (startStepName_ne_residualStepName ch' ch j' j)
  · obtain ⟨i, j, -, rfl⟩ := mem_stepsAlong.mp hresidual
    obtain ⟨i', j', -, rfl⟩ := mem_stepsAlong.mp hresidual'
    obtain ⟨rfl, -⟩ := residualStepName_injective heq
    exact stepsAlong_unique m.nodup_residualChain (fun _ _ h => (residualStepName_injective h).2)
      hresidual hresidual' heq

theorem isConstraint_of_mem_steps {value : Key → α} {step : String × α}
    (h : step ∈ steps m channels value) : Assignment.isConstraint step.1 = true := by
  obtain ⟨ch, -, hstart | hresidual⟩ := mem_steps.mp h
  · obtain ⟨i, j, -, rfl⟩ := mem_stepsAlong.mp hstart
    exact isConstraint_startStepName ch j
  · obtain ⟨i, j, -, rfl⟩ := mem_stepsAlong.mp hresidual
    exact isConstraint_residualStepName ch j

/-! ## Chains -/

/-- A chain of numbered keys derives the differences of their values. -/
theorem derived_chainOf {keys : List Key} {numbers : List Nat} {key : Nat → Key}
    (hkeys : ∀ i ∈ numbers, key i ∈ keys) (name : Nat → String) (limit : α) (value : Key → α) :
    (chainOf keys (numbers.map key) (numbers.tail.map name) limit).toList.flatMap
      (·.derived (keys.map value)) = stepsAlong value numbers key name := by
  by_cases hlength : 1 < numbers.length
  · rw [chainOf, List.length_map, if_pos hlength, Option.toList_some, List.flatMap_cons,
      List.flatMap_nil, List.append_nil, List.map_map]
    refine Chain.derived_eq (x := fun i => value (key i)) (fun i hi => ?_) name limit
    exact Chain.valueAt_idxOf value (hkeys i hi)
  · rw [chainOf, List.length_map, if_neg hlength, stepsAlong, Chain.pairs_eq_nil hlength]
    rfl

/-- The chains of channels derive the steps. -/
theorem derived_chainsOf (m : Model) (channels : List Channel) (limit : α) (value : Key → α) :
    (channels.map (chainsOf m limit (modelKeys m channels))).flatten.flatMap
      (·.derived ((modelKeys m channels).map value)) = steps m channels value := by
  rw [← List.flatMap_def, List.flatMap_assoc]
  refine List.flatMap_congr fun ch hch => ?_
  have hkeys {k : Key} (hk : k ∈ m.keys ch) : k ∈ modelKeys m channels :=
    mem_modelKeys.mpr ⟨ch, hch, hk⟩
  rw [chainsOf, List.flatMap_append, derived_chainOf fun i hi => hkeys (Model.start_mem_keys hi),
    derived_chainOf fun i hi => hkeys (Model.residualBegin_mem_keys hi)]

end Prior

end PulseFit
