import Mathlib.Data.List.Nodup
import PulseFit.Proofs.Key
import PulseFit.Proofs.Model.Indices

/-!
# Proofs.Model.Keys — the parameters of a model are listed once each

Two components may share quantities, and do: every pulse shape has a start, both residual shapes
have a begin.  They never share a quantity at one pulse, since a pulse has one shape and one
residual at most (`component_unique`), and so no key is listed twice (`nodup_keys`).
-/

namespace PulseFit

namespace Component

theorem mem_all (c : Component) : c ∈ all := by
  rcases c with s | r
  · cases s <;> decide
  · cases r <;> decide

theorem nodup_all : all.Nodup := by decide

theorem nodup_quantities (c : Component) : c.quantities.Nodup := by
  rcases c with s | r
  · cases s <;> decide
  · cases r <;> decide

/-- No quantity belongs to a pulse and to a residual. -/
theorem quantity_pulse_or_residual {q : ShapeQuantity} {s : PulseShape} {r : ResidualShape}
    (hs : q ∈ (pulse s).quantities) (hr : q ∈ (residual r).quantities) : False := by
  revert hs hr
  cases q <;> cases s <;> cases r <;> decide

end Component

namespace Key

theorem shape_pulse_injective (q : ShapeQuantity) (ch : Channel) :
    Function.Injective fun i => shape q i ch := by
  intro i j h
  exact (shape.inj h).2.1

theorem nodup_lens : (LensQuantity.all.map lens).Nodup := by decide

theorem mem_lens {k : Key} : k ∈ LensQuantity.all.map lens ↔ k.quantity.scope = .shared := by
  rcases k with q | ch | ⟨q, i, ch⟩
  · cases q <;> decide
  · simp [quantity, Quantity.scope]
  · simp [quantity, Quantity.scope]

end Key

namespace Model

variable {m : Model} {ch : Channel}

theorem mem_components {term : Component × Nat} :
    term ∈ m.components ↔ term.2 ∈ m.indices term.1 := by
  constructor
  · intro h
    obtain ⟨c, -, h⟩ := List.mem_flatMap.mp h
    obtain ⟨i, hi, rfl⟩ := List.mem_map.mp h
    exact hi
  · intro h
    exact List.mem_flatMap.mpr ⟨term.1, Component.mem_all _, List.mem_map.mpr ⟨term.2, h, rfl⟩⟩

/-- A shape that no pulse has is no component. -/
theorem ne_pulse_of_mem_components {s : PulseShape} (h : ∀ x ∈ m.pulses, x.shape ≠ s) :
    ∀ term ∈ m.components, term.1 ≠ .pulse s := by
  intro term hterm hs
  have hi := mem_components.mp hterm
  rw [hs] at hi
  obtain ⟨j, x, -, hx, hshape⟩ := mem_indices_pulse.mp hi
  exact h x (List.mem_of_getElem? hx) hshape

/-- A residual that sits on no pulse is no component. -/
theorem ne_residual_of_mem_components {s : ResidualShape}
    (h : ∀ x ∈ m.pulses, x.residual ≠ some s) : ∀ term ∈ m.components, term.1 ≠ .residual s := by
  intro term hterm hs
  have hi := mem_components.mp hterm
  rw [hs] at hi
  obtain ⟨j, x, -, hx, hresidual⟩ := mem_indices_residual.mp hi
  exact h x (List.mem_of_getElem? hx) hresidual

/-- The keys of the lens, if there is one. -/
def lensKeys (m : Model) : List Key := if m.lensed then LensQuantity.all.map Key.lens else []

/-- The keys of a component: for every quantity the pulses that have the component. -/
def shapeKeys (m : Model) (ch : Channel) (c : Component) : List Key :=
  c.quantities.flatMap fun q => (m.indices c).map fun i => Key.shape q i ch

theorem keys_eq (m : Model) (ch : Channel) :
    m.keys ch = m.lensKeys ++ .background ch :: Component.all.flatMap (m.shapeKeys ch) := rfl

theorem mem_lensKeys {k : Key} : k ∈ m.lensKeys ↔ m.lensed = true ∧ k.quantity.scope = .shared := by
  rw [lensKeys]
  split
  · next h => rw [Key.mem_lens, and_iff_right h]
  · next h => simp [h]

theorem mem_shapeKeys {c : Component} {k : Key} :
    k ∈ m.shapeKeys ch c ↔ ∃ q ∈ c.quantities, ∃ i ∈ m.indices c, k = .shape q i ch := by
  simp only [shapeKeys, List.mem_flatMap, List.mem_map, eq_comm]

theorem mem_keys {k : Key} :
    k ∈ m.keys ch ↔ (m.lensed = true ∧ k.quantity.scope = .shared) ∨ k = .background ch ∨
      ∃ c, k ∈ m.shapeKeys ch c := by
  rw [keys_eq, List.mem_append, List.mem_cons, mem_lensKeys, List.mem_flatMap]
  simp only [Component.mem_all, true_and]

theorem background_mem_keys (m : Model) (ch : Channel) : .background ch ∈ m.keys ch :=
  mem_keys.mpr (.inr (.inl rfl))

/-- The key of a quantity of a component, at a pulse that has the component. -/
theorem shape_mem_keys {c : Component} {q : ShapeQuantity} {i : Nat} (hq : q ∈ c.quantities)
    (hi : i ∈ m.indices c) : .shape q i ch ∈ m.keys ch :=
  mem_keys.mpr (.inr (.inr ⟨c, mem_shapeKeys.mpr ⟨q, hq, i, hi, rfl⟩⟩))

/-- Only keys of the lens stand in no channel. -/
theorem channel?_of_mem_keys {k : Key} (h : k ∈ m.keys ch) (hk : k.quantity.scope ≠ .shared) :
    k.channel? = some ch := by
  rcases mem_keys.mp h with ⟨-, hshared⟩ | rfl | ⟨c, hc⟩
  · exact absurd hshared hk
  · rfl
  · obtain ⟨q, -, i, -, rfl⟩ := mem_shapeKeys.mp hc
    rfl

/-- Two channels have no keys in common but those of the lens. -/
theorem channel_unique {k : Key} {ch' : Channel} (h : k ∈ m.keys ch) (h' : k ∈ m.keys ch')
    (hk : k.quantity.scope ≠ .shared) : ch = ch' :=
  Option.some.inj ((channel?_of_mem_keys h hk).symm.trans (channel?_of_mem_keys h' hk))

/-- The keys of the lens are the same in all channels. -/
theorem mem_keys_of_shared {k : Key} {ch' : Channel} (h : k ∈ m.keys ch)
    (hk : k.quantity.scope = .shared) : k ∈ m.keys ch' := by
  rcases mem_keys.mp h with hlens | rfl | ⟨c, hc⟩
  · exact mem_keys.mpr (.inl hlens)
  · cases hk
  · obtain ⟨q, -, i, -, rfl⟩ := mem_shapeKeys.mp hc
    cases hk

/-- Two components of a pulse that have a quantity in common are one. -/
theorem component_unique {c c' : Component} {q : ShapeQuantity} {i : Nat} (hi : i ∈ m.indices c)
    (hi' : i ∈ m.indices c') (hq : q ∈ c.quantities) (hq' : q ∈ c'.quantities) : c = c' := by
  cases c with
  | pulse s =>
    cases c' with
    | pulse t => rw [shape_unique hi hi']
    | residual r => exact (Component.quantity_pulse_or_residual hq hq').elim
  | residual r =>
    cases c' with
    | pulse t => exact (Component.quantity_pulse_or_residual hq' hq).elim
    | residual t => rw [residual_unique hi hi']

theorem nodup_lensKeys (m : Model) : m.lensKeys.Nodup := by
  rw [lensKeys]
  split
  · exact Key.nodup_lens
  · exact List.nodup_nil

theorem nodup_shapeKeys (m : Model) (ch : Channel) (c : Component) : (m.shapeKeys ch c).Nodup := by
  rw [shapeKeys, List.nodup_flatMap]
  refine ⟨fun q _ => (m.nodup_indices c).map (Key.shape_pulse_injective q ch), ?_⟩
  refine c.nodup_quantities.imp fun hne k hk hk' => ?_
  obtain ⟨i, -, rfl⟩ := List.mem_map.mp hk
  obtain ⟨j, -, h⟩ := List.mem_map.mp hk'
  exact hne (Key.shape.inj h).1.symm

/-- No parameter of a model is listed twice. -/
theorem nodup_keys (m : Model) (ch : Channel) : (m.keys ch).Nodup := by
  have hshapes : (Component.all.flatMap (m.shapeKeys ch)).Nodup := by
    rw [List.nodup_flatMap]
    refine ⟨fun c _ => m.nodup_shapeKeys ch c, ?_⟩
    refine Component.nodup_all.imp fun hne k hk hk' => ?_
    obtain ⟨q, hq, i, hi, rfl⟩ := mem_shapeKeys.mp hk
    obtain ⟨q', hq', i', hi', h⟩ := mem_shapeKeys.mp hk'
    obtain ⟨rfl, rfl, -⟩ := Key.shape.inj h
    exact hne (component_unique hi hi' hq hq')
  have hbackground : .background ch ∉ Component.all.flatMap (m.shapeKeys ch) := by
    intro h
    obtain ⟨c, -, hc⟩ := List.mem_flatMap.mp h
    obtain ⟨q, -, i, -, hk⟩ := mem_shapeKeys.mp hc
    cases hk
  rw [keys_eq]
  refine List.Nodup.append m.nodup_lensKeys (List.nodup_cons.mpr ⟨hbackground, hshapes⟩) ?_
  -- the keys of the lens have the scope `shared`, all others have not
  intro k hk hk'
  have hshared := (mem_lensKeys.mp hk).2
  rcases List.mem_cons.mp hk' with rfl | hk'
  · cases hshared
  · obtain ⟨c, -, hc⟩ := List.mem_flatMap.mp hk'
    obtain ⟨q, -, i, -, rfl⟩ := mem_shapeKeys.mp hc
    cases hshared

/-- No name of a parameter is listed twice. -/
theorem nodup_names (m : Model) (ch : Channel) : ((m.keys ch).map Key.text).Nodup :=
  (m.nodup_keys ch).map fun _ _ => Key.text_injective

/-- The parameters of a model can be read back if its pulses can be counted by a machine word. -/
theorem numbered_of_mem_keys (hsize : m.size < Key.pulseBound) {k : Key} (hk : k ∈ m.keys ch) :
    k.Numbered := by
  intro i hi
  rcases k with q | ch' | ⟨q, j, ch'⟩
  · cases hi
  · cases hi
  · obtain rfl : j = i := Option.some.inj hi
    rcases mem_keys.mp hk with ⟨-, hshared⟩ | h | ⟨c, hc⟩
    · cases hshared
    · cases h
    · obtain ⟨q', -, j', hj, h⟩ := mem_shapeKeys.mp hc
      obtain ⟨-, rfl, -⟩ := Key.shape.inj h
      exact ⟨pos_of_mem_indices hj, Nat.lt_of_le_of_lt (le_size_of_mem_indices hj) hsize⟩

end Model

end PulseFit
