import PulseFit.Prior
import PulseFit.Proofs.Model.Keys
import PulseFit.Proofs.Prior.Bounds
import PulseFit.Proofs.Traversal

/-!
# Proofs.Prior.Build — the prior of a model in channels

A prior that was built has one entry for every parameter of the model in the channels, with the
distribution that the bounds give to its quantity (`keys_of_build?`, `marginal_of_build?`).
Building succeeds for accepted bounds: all quantities have distributions, and the starts and begins
that the chains ask for are among the parameters (`exists_build?`).
-/

namespace PulseFit

namespace Model

variable {m : Model} {ch : Channel}

/-- Every pulse has a start. -/
theorem start_mem_keys {i : Nat} (h : i ∈ List.range' 1 m.size) :
    .shape .start i ch ∈ m.keys ch := by
  obtain ⟨s, hi⟩ := exists_shape_of_mem_range h
  exact shape_mem_keys (Component.timeQuantity_mem_quantities (.pulse s)) hi

/-- Every residual has a begin. -/
theorem residualBegin_mem_keys {i : Nat} (h : i ∈ m.residualChain) :
    .shape .residualBegin i ch ∈ m.keys ch := by
  obtain ⟨r, hi⟩ := mem_residualChain.mp h
  exact shape_mem_keys (Component.timeQuantity_mem_quantities (.residual r)) hi

end Model

namespace Prior

variable {α : Type} {m : Model} {channels : List Channel}

/-! ## The parameters -/

theorem modelKeys_singleton (m : Model) (ch : Channel) : modelKeys m [ch] = m.keys ch :=
  List.append_nil _

/-- The parameters in channels are those in each of them. -/
theorem mem_modelKeys {k : Key} : k ∈ modelKeys m channels ↔ ∃ ch ∈ channels, k ∈ m.keys ch := by
  cases channels with
  | nil => simp [modelKeys]
  | cons ch rest =>
    simp only [modelKeys, List.mem_append, List.mem_flatMap, List.mem_filter, decide_eq_true_eq]
    constructor
    · rintro (hk | ⟨ch', hch', hk, -⟩)
      · exact ⟨ch, List.mem_cons_self, hk⟩
      · exact ⟨ch', List.mem_cons_of_mem ch hch', hk⟩
    · rintro ⟨ch', hch', hk⟩
      obtain rfl | hrest := List.mem_cons.mp hch'
      · exact .inl hk
      · -- what the first channel does not list is not the lens
        by_cases hshared : k.quantity.scope = .shared
        · exact .inl (Model.mem_keys_of_shared hk hshared)
        · exact .inr ⟨ch', hrest, hk, hshared⟩

theorem forall_mem_modelKeys {P : Key → Prop} :
    (∀ k ∈ modelKeys m channels, P k) ↔ ∀ ch ∈ channels, ∀ k ∈ m.keys ch, P k := by
  simp only [mem_modelKeys]
  exact ⟨fun h ch hch k hk => h k ⟨ch, hch, hk⟩, fun h k ⟨ch, hch, hk⟩ => h ch hch k hk⟩

/-- Different channels have no parameters in common but those of the lens, which stand once. -/
theorem nodup_modelKeys (h : channels.Nodup) : (modelKeys m channels).Nodup := by
  cases channels with
  | nil => exact List.nodup_nil
  | cons ch rest =>
    obtain ⟨hch, hrest⟩ := List.nodup_cons.mp h
    have hothers :
        (rest.flatMap fun ch => (m.keys ch).filter (·.quantity.scope ≠ .shared)).Nodup := by
      rw [List.nodup_flatMap]
      refine ⟨fun ch' _ => (m.nodup_keys ch').filter _, ?_⟩
      refine hrest.imp fun hne k hk hk' => ?_
      obtain ⟨hk, hscope⟩ := List.mem_filter.mp hk
      exact hne (Model.channel_unique hk (List.mem_filter.mp hk').1 (by simpa using hscope))
    refine List.Nodup.append (m.nodup_keys ch) hothers fun k hk hk' => ?_
    obtain ⟨ch', hch', hk'⟩ := List.mem_flatMap.mp hk'
    obtain ⟨hk', hscope⟩ := List.mem_filter.mp hk'
    obtain rfl := Model.channel_unique hk hk' (by simpa using hscope)
    exact hch hch'

/-! ## The chains -/

/-- Keys that are all there have places. -/
theorem places_eq_ok {keys wanted : List Key} (h : ∀ k ∈ wanted, k ∈ keys) :
    places (α := α) keys wanted = .ok (wanted.map keys.idxOf) :=
  mapM_eq_pure_map fun k hk => if_pos (List.contains_iff_mem.mpr (h k hk))

/-- The chain of keys that are all there. -/
def chainOf (keys wanted : List Key) (names : List String) (limit : α) : Option (Chain α) :=
  if 1 < wanted.length then some ⟨wanted.map keys.idxOf, names, limit⟩ else none

theorem chain?_eq_ok {keys wanted : List Key} (h : ∀ k ∈ wanted, k ∈ keys) (names : List String)
    (limit : α) : chain? keys wanted names limit = .ok (chainOf keys wanted names limit) := by
  have hlength : (wanted.map keys.idxOf).length = wanted.length := List.length_map _
  rw [chain?, places_eq_ok h, chainOf, ← hlength]
  rfl

/-- The starts of a channel, then its residuals. -/
def chainsOf (m : Model) (limit : α) (keys : List Key) (ch : Channel) : List (Chain α) :=
  (chainOf keys ((List.range' 1 m.size).map fun i => .shape .start i ch)
      ((List.range' 1 m.size).tail.map (startStepName ch)) limit).toList ++
    (chainOf keys (m.residualChain.map fun i => .shape .residualBegin i ch)
      (m.residualChain.tail.map (residualStepName ch)) limit).toList

/-- All that the chains of a channel ask for is there. -/
theorem channelChains_eq_ok {keys : List Key} {ch : Channel} (h : ∀ k ∈ m.keys ch, k ∈ keys)
    (limit : α) : channelChains m limit keys ch = .ok (chainsOf m limit keys ch) := by
  have hstarts : ∀ k ∈ (List.range' 1 m.size).map fun i => Key.shape .start i ch, k ∈ keys := by
    intro k hk
    obtain ⟨i, hi, rfl⟩ := List.mem_map.mp hk
    exact h _ (Model.start_mem_keys hi)
  have hresiduals : ∀ k ∈ m.residualChain.map fun i => Key.shape .residualBegin i ch, k ∈ keys := by
    intro k hk
    obtain ⟨i, hi, rfl⟩ := List.mem_map.mp hk
    exact h _ (Model.residualBegin_mem_keys hi)
  simp only [channelChains, chain?_eq_ok hstarts, chain?_eq_ok hresiduals]
  rfl

theorem mapM_channelChains (m : Model) (channels : List Channel) (limit : α) :
    channels.mapM (channelChains m limit (modelKeys m channels)) =
      .ok (channels.map (chainsOf m limit (modelKeys m channels))) :=
  mapM_eq_pure_map fun ch hch =>
    channelChains_eq_ok (fun _ hk => mem_modelKeys.mpr ⟨ch, hch, hk⟩) limit

/-! ## The prior -/

variable [Scalar α] {b : Bounds α} {r : Prior α}

theorem usualAttempts_pos : 0 < usualAttempts := by decide

/-- The prior that is built from entries. -/
def ofEntries (m : Model) (channels : List Channel) (limit : α) (entries : List (Entry α)) :
    Prior α where
  entries
  chains := (channels.map (chainsOf m limit (modelKeys m channels))).flatten
  attempts_pos := usualAttempts_pos

/-- For accepted bounds, building succeeds exactly if every parameter has a distribution. -/
theorem build?_eq (hb : b.validate = .ok ()) (m : Model) (channels : List Channel) :
    build? m channels b =
      ((modelKeys m channels).mapM fun k => (b.marginal? k.quantity).map (Entry.mk k ·)).map
        fun entries => .ok (ofEntries m channels b.width entries) := by
  simp only [build?, hb, mapM_channelChains]
  cases (modelKeys m channels).mapM fun k => (b.marginal? k.quantity).map (Entry.mk k ·) <;> rfl

/-- The entries of keys with the distributions of their quantities. -/
theorem of_mapM_marginal? {keys : List Key} {entries : List (Entry α)}
    (h : (keys.mapM fun k => (b.marginal? k.quantity).map (Entry.mk k ·)) = some entries) :
    entries.map (·.key) = keys ∧
      ∀ e ∈ entries, b.marginal? e.key.quantity = some e.marginal := by
  induction keys generalizing entries with
  | nil =>
    cases h
    exact ⟨rfl, fun e he => (List.not_mem_nil he).elim⟩
  | cons k keys ih =>
    rw [List.mapM_cons] at h
    obtain ⟨e, he, h⟩ := Option.bind_eq_some_iff.mp h
    obtain ⟨rest, hrest, h⟩ := Option.bind_eq_some_iff.mp h
    obtain ⟨d, hd, rfl⟩ := Option.map_eq_some_iff.mp he
    obtain ⟨hkeys, hmarginals⟩ := ih hrest
    obtain rfl : ⟨k, d⟩ :: rest = entries := Option.some.inj h
    refine ⟨congrArg (k :: ·) hkeys, fun e he => ?_⟩
    obtain rfl | he := List.mem_cons.mp he
    · exact hd
    · exact hmarginals e he

/-- A prior that was built has accepted bounds. -/
theorem validate_of_build? (h : build? m channels b = some (.ok r)) : b.validate = .ok () := by
  cases hb : b.validate with
  | error e =>
    rw [build?, hb] at h
    cases h
  | ok u => rfl

/-- What a prior is built from. -/
theorem of_build? (h : build? m channels b = some (.ok r)) :
    ∃ entries, r = ofEntries m channels b.width entries ∧
      (modelKeys m channels).mapM (fun k => (b.marginal? k.quantity).map (Entry.mk k ·)) =
        some entries := by
  rw [build?_eq (validate_of_build? h)] at h
  obtain ⟨entries, hentries, hr⟩ := Option.map_eq_some_iff.mp h
  exact ⟨entries, (Except.ok.inj hr).symm, hentries⟩

/-- The entries are the parameters of the model, in their order. -/
theorem keys_of_build? (h : build? m channels b = some (.ok r)) :
    r.entries.map (·.key) = modelKeys m channels := by
  obtain ⟨entries, rfl, hentries⟩ := of_build? h
  exact (of_mapM_marginal? hentries).1

/-- Every entry has the distribution that the bounds give to its quantity. -/
theorem marginal_of_build? (h : build? m channels b = some (.ok r)) {e : Entry α}
    (he : e ∈ r.entries) : b.marginal? e.key.quantity = some e.marginal := by
  obtain ⟨entries, rfl, hentries⟩ := of_build? h
  exact (of_mapM_marginal? hentries).2 e he

theorem names_of_build? (h : build? m channels b = some (.ok r)) :
    r.names = (modelKeys m channels).map Key.text := by
  rw [← keys_of_build? h, List.map_map]
  rfl

theorem size_of_build? (h : build? m channels b = some (.ok r)) :
    r.size = (modelKeys m channels).length := by
  rw [← keys_of_build? h, List.length_map, size]

theorem chains_of_build? (h : build? m channels b = some (.ok r)) :
    r.chains = (channels.map (chainsOf m b.width (modelKeys m channels))).flatten := by
  obtain ⟨entries, rfl, -⟩ := of_build? h
  rfl

/-- The distribution of a parameter is found under its name. -/
theorem get?_of_build? (h : build? m channels b = some (.ok r)) {k : Key}
    (hk : k ∈ modelKeys m channels) :
    ∃ d, r.get? k.text = some d ∧ b.marginal? k.quantity = some d := by
  rw [← keys_of_build? h] at hk
  obtain ⟨e, he, rfl⟩ := List.mem_map.mp hk
  cases hf : r.entries.find? (·.name == e.key.text) with
  | none => exact absurd (List.find?_eq_none.mp hf e he) (by simp [Entry.name])
  | some e' =>
    -- the entry that is found has the same name, so the same key
    have hname : e'.key.text = e.key.text := by simpa [Entry.name] using List.find?_some hf
    refine ⟨e'.marginal, by rw [get?, hf]; rfl, ?_⟩
    rw [← Key.text_injective hname]
    exact marginal_of_build? h (List.mem_of_find?_eq_some hf)

/-- Building succeeds for accepted bounds. -/
theorem exists_build? [Scalar.LawfulOrder α] [Scalar.LawfulLog α] (hb : b.validate = .ok ())
    (m : Model) (channels : List Channel) : ∃ r, build? m channels b = some (.ok r) := by
  obtain ⟨entries, hentries⟩ : ∃ entries, ((modelKeys m channels).mapM fun k =>
      (b.marginal? k.quantity).map (Entry.mk k ·)) = some entries := by
    refine exists_mapM_eq_some fun k _ => ?_
    obtain ⟨d, hd⟩ := Bounds.exists_marginal hb k.quantity
    exact ⟨⟨k, d⟩, by rw [hd]; rfl⟩
  exact ⟨ofEntries m channels b.width entries, by rw [build?_eq hb, hentries]; rfl⟩

end Prior

end PulseFit
