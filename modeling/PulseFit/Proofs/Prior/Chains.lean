import PulseFit.Proofs.Prior.Sorting

/-!
# Proofs.Prior.Chains — the chains of a prior that was built

A chain of a built prior runs along the starts or along the residuals of one channel
(`chain_of_build?`), and its members are the first places of their keys.  Chains of two kinds or of
two channels have no members in common, and a channel that is given twice gets the same chains
twice, so the chains can be sorted one after the other (`sortable_of_build?`).
-/

namespace PulseFit

namespace Model

/-- The pulses in the order that a quantity has to keep: all pulses for their starts, those with a
residual for its begin, none for other quantities. -/
def orderedPulses (m : Model) : ShapeQuantity → List Nat
  | .start => List.range' 1 m.size
  | .residualBegin => m.residualChain
  | _ => []

variable {m : Model} {q : ShapeQuantity}

theorem pairwise_orderedPulses (m : Model) (q : ShapeQuantity) :
    (m.orderedPulses q).Pairwise (· < ·) := by
  unfold orderedPulses
  split
  · exact List.pairwise_lt_range'
  · exact m.pairwise_residualChain
  · exact List.Pairwise.nil

theorem mem_keys_of_mem_orderedPulses {ch : Channel} {i : Nat} (h : i ∈ m.orderedPulses q) :
    .shape q i ch ∈ m.keys ch := by
  unfold orderedPulses at h
  split at h
  · exact start_mem_keys h
  · exact residualBegin_mem_keys h
  · cases h

theorem eq_of_mem_orderedPulses {i : Nat} (h : i ∈ m.orderedPulses q) :
    q = .start ∨ q = .residualBegin := by
  unfold orderedPulses at h
  split at h
  · exact .inl rfl
  · exact .inr rfl
  · cases h

end Model

namespace Prior

variable {α : Type} {m : Model} {channels : List Channel} {ch ch' : Channel} {q q' : ShapeQuantity}

/-! ## Members -/

/-- The first places of the times that a quantity orders in a channel. -/
def orderedPlaces (m : Model) (channels : List Channel) (ch : Channel) (q : ShapeQuantity) :
    List Nat :=
  (m.orderedPulses q).map fun i => (modelKeys m channels).idxOf (.shape q i ch)

theorem mem_modelKeys_of_mem_orderedPulses (hch : ch ∈ channels) {i : Nat}
    (h : i ∈ m.orderedPulses q) : .shape q i ch ∈ modelKeys m channels :=
  mem_modelKeys.mpr ⟨ch, hch, Model.mem_keys_of_mem_orderedPulses h⟩

theorem nodup_orderedPlaces (hch : ch ∈ channels) : (orderedPlaces m channels ch q).Nodup := by
  have hnodup : (m.orderedPulses q).Nodup := (m.pairwise_orderedPulses q).imp Nat.ne_of_lt
  refine hnodup.map_on fun i hi j _ h => ?_
  have hkey := (List.idxOf_inj (mem_modelKeys_of_mem_orderedPulses hch hi)).mp h
  exact (Key.shape.inj hkey).2.1

theorem lt_of_mem_orderedPlaces (hch : ch ∈ channels) {i : Nat}
    (h : i ∈ orderedPlaces m channels ch q) : i < (modelKeys m channels).length := by
  obtain ⟨pulse, hpulse, rfl⟩ := List.mem_map.mp h
  exact List.idxOf_lt_length_of_mem (mem_modelKeys_of_mem_orderedPulses hch hpulse)

/-- At a place in the order of a quantity stands a time that the quantity orders. -/
theorem getElem?_of_mem_orderedPlaces (hch : ch ∈ channels) {i : Nat}
    (h : i ∈ orderedPlaces m channels ch q) :
    ∃ pulse ∈ m.orderedPulses q, (modelKeys m channels)[i]? = some (.shape q pulse ch) := by
  obtain ⟨pulse, hpulse, rfl⟩ := List.mem_map.mp h
  exact ⟨pulse, hpulse, List.getElem?_idxOf (mem_modelKeys_of_mem_orderedPulses hch hpulse)⟩

/-- A place is ordered in one channel by one quantity. -/
theorem orderedPlaces_unique (hch : ch ∈ channels) (hch' : ch' ∈ channels) {i : Nat}
    (h : i ∈ orderedPlaces m channels ch q) (h' : i ∈ orderedPlaces m channels ch' q') :
    ch = ch' ∧ q = q' := by
  obtain ⟨pulse, -, hkey⟩ := getElem?_of_mem_orderedPlaces hch h
  obtain ⟨pulse', -, hkey'⟩ := getElem?_of_mem_orderedPlaces hch' h'
  obtain ⟨rfl, -, rfl⟩ := Key.shape.inj (Option.some.inj (hkey.symm.trans hkey'))
  exact ⟨rfl, rfl⟩

/-! ## Chains -/

theorem mem_chainOf {keys wanted : List Key} {names : List String} {limit : α} {c : Chain α} :
    c ∈ (chainOf keys wanted names limit).toList ↔
      1 < wanted.length ∧ c = ⟨wanted.map keys.idxOf, names, limit⟩ := by
  unfold chainOf
  by_cases hlength : 1 < wanted.length
  · simp [hlength]
  · simp [hlength]

theorem mem_chainsOf {limit : α} {c : Chain α}
    (h : c ∈ chainsOf m limit (modelKeys m channels) ch) :
    ∃ q, c.members = orderedPlaces m channels ch q ∧ c.limit = limit := by
  rcases List.mem_append.mp h with hstart | hresidual
  · obtain ⟨-, rfl⟩ := mem_chainOf.mp hstart
    exact ⟨.start, List.map_map, rfl⟩
  · obtain ⟨-, rfl⟩ := mem_chainOf.mp hresidual
    exact ⟨.residualBegin, List.map_map, rfl⟩

theorem exists_mem_chainsOf {limit : α} (hlength : 1 < (m.orderedPulses q).length) :
    ∃ c ∈ chainsOf m limit (modelKeys m channels) ch,
      c.members = orderedPlaces m channels ch q := by
  cases q
  case start =>
    refine ⟨_, List.mem_append_left _ (mem_chainOf.mpr ⟨?_, rfl⟩), List.map_map⟩
    rwa [List.length_map]
  case residualBegin =>
    refine ⟨_, List.mem_append_right _ (mem_chainOf.mpr ⟨?_, rfl⟩), List.map_map⟩
    rwa [List.length_map]
  all_goals exact absurd hlength (Nat.not_lt_zero 1)

variable [Scalar α] {b : Bounds α} {r : Prior α}

/-- A chain runs along the times that a quantity orders in a channel. -/
theorem chain_of_build? (h : build? m channels b = some (.ok r)) {c : Chain α}
    (hc : c ∈ r.chains) :
    ∃ ch ∈ channels, ∃ q, c.members = orderedPlaces m channels ch q ∧ c.limit = b.width := by
  rw [chains_of_build? h, ← List.flatMap_def] at hc
  obtain ⟨ch, hch, hc⟩ := List.mem_flatMap.mp hc
  exact ⟨ch, hch, mem_chainsOf hc⟩

/-- An entry for a time: the start of a pulse or of a residual. -/
def IsTime (r : Prior α) (i : Nat) : Prop :=
  ∃ e, r.entries[i]? = some e ∧
    (e.key.quantity = .shape .start ∨ e.key.quantity = .shape .residualBegin)

theorem isTime_of_mem_orderedPlaces (h : build? m channels b = some (.ok r)) (hch : ch ∈ channels)
    {i : Nat} (hi : i ∈ orderedPlaces m channels ch q) : r.IsTime i := by
  obtain ⟨pulse, hpulse, hkey⟩ := getElem?_of_mem_orderedPlaces hch hi
  rw [← keys_of_build? h, List.getElem?_map] at hkey
  obtain ⟨e, he, hkey⟩ := Option.map_eq_some_iff.mp hkey
  refine ⟨e, he, ?_⟩
  rw [hkey]
  rcases Model.eq_of_mem_orderedPulses hpulse with rfl | rfl
  · exact .inl rfl
  · exact .inr rfl

/-- Chains run through times. -/
theorem isTime_of_mem_members (h : build? m channels b = some (.ok r)) {c : Chain α}
    (hc : c ∈ r.chains) {i : Nat} (hi : i ∈ c.members) : r.IsTime i := by
  obtain ⟨ch, hch, q, hmembers, -⟩ := chain_of_build? h hc
  exact isTime_of_mem_orderedPlaces h hch (hmembers ▸ hi)

/-- Times are uniform in the window. -/
theorem uniform_of_isTime (h : build? m channels b = some (.ok r)) {i : Nat} (hi : r.IsTime i) :
    ∃ e, r.entries[i]? = some e ∧
      Marginal.uniform? b.window.lo b.window.hi = some e.marginal := by
  obtain ⟨e, he, hquantity⟩ := hi
  have hmarginal := marginal_of_build? h (List.mem_of_getElem? he)
  refine ⟨e, he, ?_⟩
  rcases hquantity with hstart | hresidual
  · rwa [hstart] at hmarginal
  · rwa [hresidual] at hmarginal

/-- Two times or more that a quantity orders in a channel have a chain. -/
theorem exists_chain_of_build? (h : build? m channels b = some (.ok r)) (hch : ch ∈ channels)
    (hlength : 1 < (m.orderedPulses q).length) :
    ∃ c ∈ r.chains, c.members = orderedPlaces m channels ch q := by
  obtain ⟨c, hc, hmembers⟩ := exists_mem_chainsOf hlength
  refine ⟨c, ?_, hmembers⟩
  rw [chains_of_build? h, ← List.flatMap_def]
  exact List.mem_flatMap.mpr ⟨ch, hch, hc⟩

/-- The values of keys keep the order exactly if no time comes before its predecessor in the order,
nor later than it by more than the width of the window. -/
theorem ordered_iff (h : build? m channels b = some (.ok r)) (value : Key → α) :
    r.ordered ((modelKeys m channels).map value) = true ↔
      ∀ ch ∈ channels, ∀ q i j, (i, j) ∈ Chain.pairs (m.orderedPulses q) →
        0.0 ≤ value (.shape q j ch) - value (.shape q i ch) ∧
          value (.shape q j ch) - value (.shape q i ch) ≤ b.width := by
  have hvalue {ch : Channel} (hch : ch ∈ channels) {q : ShapeQuantity} {i : Nat}
      (hi : i ∈ m.orderedPulses q) :
      Chain.valueAt ((modelKeys m channels).map value)
        ((modelKeys m channels).idxOf (.shape q i ch)) = value (.shape q i ch) :=
    Chain.valueAt_idxOf value (mem_modelKeys_of_mem_orderedPulses hch hi)
  rw [ordered, List.all_eq_true]
  constructor
  · intro hholds ch hch q i j hpair
    obtain ⟨k, hi, hj⟩ := Chain.mem_pairs.mp hpair
    have hlength : 1 < (m.orderedPulses q).length := by
      obtain ⟨hlt, -⟩ := List.getElem?_eq_some_iff.mp hj
      omega
    obtain ⟨c, hc, hmembers⟩ := exists_chain_of_build? h hch hlength
    have hlimit : c.limit = b.width := by
      obtain ⟨_, -, _, -, hlimit⟩ := chain_of_build? h hc
      exact hlimit
    have hstep := Chain.holds_iff.mp (hholds c hc) ((modelKeys m channels).idxOf (.shape q i ch))
      ((modelKeys m channels).idxOf (.shape q j ch)) (by
        rw [hmembers, orderedPlaces, Chain.pairs_map]
        exact List.mem_map_of_mem hpair)
    rwa [hvalue hch (List.mem_of_getElem? hi), hvalue hch (List.mem_of_getElem? hj), hlimit]
      at hstep
  · intro hsteps c hc
    obtain ⟨ch, hch, q, hmembers, hlimit⟩ := chain_of_build? h hc
    rw [Chain.holds_iff, hmembers, hlimit, orderedPlaces, Chain.pairs_map]
    intro s t hmem
    obtain ⟨⟨i, j⟩, hpair, heq⟩ := List.mem_map.mp hmem
    obtain ⟨rfl, rfl⟩ := Prod.mk.inj heq
    obtain ⟨k, hi, hj⟩ := Chain.mem_pairs.mp hpair
    rw [hvalue hch (List.mem_of_getElem? hi), hvalue hch (List.mem_of_getElem? hj)]
    exact hsteps ch hch q i j hpair

/-- The chains can be sorted one after the other. -/
theorem sortable_of_build? (h : build? m channels b = some (.ok r)) :
    Sortable r.size r.chains where
  nodup c hc := by
    obtain ⟨ch, hch, q, hmembers, -⟩ := chain_of_build? h hc
    rw [hmembers]
    exact nodup_orderedPlaces hch
  bound c hc i hi := by
    obtain ⟨ch, hch, q, hmembers, -⟩ := chain_of_build? h hc
    rw [hmembers] at hi
    rw [size_of_build? h]
    exact lt_of_mem_orderedPlaces hch hi
  apart c hc c' hc' := by
    obtain ⟨ch, hch, q, hmembers, -⟩ := chain_of_build? h hc
    obtain ⟨ch', hch', q', hmembers', -⟩ := chain_of_build? h hc'
    by_cases hsame : ch = ch' ∧ q = q'
    · left
      rw [hmembers, hmembers', hsame.1, hsame.2]
    · right
      intro i hi hi'
      rw [hmembers] at hi
      rw [hmembers'] at hi'
      exact hsame (orderedPlaces_unique hch hch' hi hi')

end Prior

end PulseFit
