import PulseFit.Proofs.Prior.Chains
import PulseFit.Proofs.Prior.Constraints
import PulseFit.Proofs.Scalar.Sums

/-!
# Proofs.Prior.Reordering — channels in another order

The parameters of the lens stand with whichever channel comes first, and chains refer to places,
which move with the channels.  Yet a prior over the same channels in another order has the same
parameters (`modelKeys_perm`) and the same derived ones (`constraintNames_perm`), and says the same
of every assignment (`satisfied_reordered`, `logAt_reordered`), since all its values are those of
keys: `satisfied_eq` and `logAt_eq` no longer mention a place.
-/

namespace PulseFit

namespace Model

/-- The parameters that a channel does not share with others. -/
def ownKeys (m : Model) (ch : Channel) : List Key :=
  .background ch :: Component.all.flatMap (m.shapeKeys ch)

theorem scope_of_mem_ownKeys {m : Model} {ch : Channel} {k : Key} (h : k ∈ m.ownKeys ch) :
    k.quantity.scope ≠ .shared := by
  rcases List.mem_cons.mp h with rfl | h
  · exact nofun
  · obtain ⟨c, -, hc⟩ := List.mem_flatMap.mp h
    obtain ⟨q, -, i, -, rfl⟩ := mem_shapeKeys.mp hc
    exact nofun

/-- Leaving out what is shared leaves what is not. -/
theorem filter_keys (m : Model) (ch : Channel) :
    (m.keys ch).filter (·.quantity.scope ≠ .shared) = m.ownKeys ch := by
  have hlens : m.lensKeys.filter (·.quantity.scope ≠ .shared) = [] := by
    rw [List.filter_eq_nil_iff]
    intro k hk
    simp [(mem_lensKeys.mp hk).2]
  have hown : (m.ownKeys ch).filter (·.quantity.scope ≠ .shared) = m.ownKeys ch := by
    rw [List.filter_eq_self]
    intro k hk
    exact decide_eq_true (scope_of_mem_ownKeys hk)
  show (m.lensKeys ++ m.ownKeys ch).filter _ = m.ownKeys ch
  rw [List.filter_append, hlens, hown, List.nil_append]

end Model

namespace Prior

variable {α : Type} {m : Model} {channels channels' : List Channel}

/-! ## Parameters -/

/-- The parameters of the lens come once, then each channel has its own. -/
theorem modelKeys_eq (m : Model) (h : channels ≠ []) :
    modelKeys m channels = m.lensKeys ++ channels.flatMap m.ownKeys := by
  cases channels with
  | nil => exact absurd rfl h
  | cons ch rest =>
    show (m.lensKeys ++ m.ownKeys ch) ++ rest.flatMap _ = _
    simp only [Model.filter_keys, List.flatMap_cons, List.append_assoc]

theorem modelKeys_perm (m : Model) (h : channels.Perm channels') :
    (modelKeys m channels).Perm (modelKeys m channels') := by
  by_cases hnil : channels = []
  · rw [hnil, List.nil_perm] at h
    rw [hnil, h]
  · have hnil' : channels' ≠ [] := by
      intro hnil'
      rw [hnil', List.perm_nil] at h
      exact hnil h
    rw [modelKeys_eq m hnil, modelKeys_eq m hnil']
    exact (h.flatMap_right _).append_left _

/-! ## Derived parameters -/

/-- The names of the steps of a channel. -/
def stepNames (m : Model) (ch : Channel) : List String :=
  (List.range' 1 m.size).tail.map (startStepName ch) ++
    m.residualChain.tail.map (residualStepName ch)

/-- A chain has a name for each of its members but the first; without a chain there is none. -/
theorem names_chainOf (keys : List Key) (key : Nat → Key) (name : Nat → String) (limit : α)
    (numbers : List Nat) :
    (chainOf keys (numbers.map key) (numbers.tail.map name) limit).toList.flatMap (·.names) =
      numbers.tail.map name := by
  unfold chainOf
  rw [List.length_map]
  by_cases hlength : 1 < numbers.length
  · rw [if_pos hlength, Option.toList_some, List.flatMap_singleton]
  · have htail : numbers.tail = [] := by
      apply List.eq_nil_of_length_eq_zero
      rw [List.length_tail]
      omega
    rw [if_neg hlength, htail]
    rfl

theorem names_chainsOf (m : Model) (limit : α) (keys : List Key) (ch : Channel) :
    (chainsOf m limit keys ch).flatMap (·.names) = stepNames m ch := by
  unfold chainsOf stepNames
  rw [List.flatMap_append, names_chainOf, names_chainOf]

variable [Scalar α] {b : Bounds α} {r r' : Prior α} {p : Assignment α} {value : Key → α}

theorem constraintNames_of_build? (hr : build? m channels b = some (.ok r)) :
    r.constraintNames = channels.flatMap (stepNames m) := by
  unfold constraintNames
  rw [chains_of_build? hr, ← List.flatMap_def, List.flatMap_assoc]
  apply List.flatMap_congr
  intro ch _
  exact names_chainsOf ..

theorem constraintNames_perm (hr : build? m channels b = some (.ok r))
    (hr' : build? m channels' b = some (.ok r')) (h : channels.Perm channels') :
    r.constraintNames.Perm r'.constraintNames := by
  rw [constraintNames_of_build? hr, constraintNames_of_build? hr']
  exact h.flatMap_right _

/-! ## Densities -/

/-- The logarithm of the density of a value of a quantity, zero where the bounds give it no
distribution. -/
def logDensity (b : Bounds α) (q : Quantity) (x : α) : α :=
  ((b.marginal? q).map (·.logAt x)).getD 0.0

/-- The densities are those of the values of keys. -/
theorem logSum_of_build? (hr : build? m channels b = some (.ok r)) (value : Key → α) :
    logSum r.entries ((modelKeys m channels).map value) =
      (modelKeys m channels).foldl (fun sum k => sum + logDensity b k.quantity (value k)) 0.0 := by
  unfold logSum
  rw [← keys_of_build? hr, zip_values, List.foldl_map, List.foldl_map]
  apply List.foldl_ext
  intro sum e he
  show sum + e.marginal.logAt (value e.key) = sum + logDensity b e.key.quantity (value e.key)
  rw [logDensity, marginal_of_build? hr he]
  rfl

theorem logAt_eq (hr : build? m channels b = some (.ok r))
    (hp : ∀ k ∈ modelKeys m channels, p[k.text]? = some (value k)) :
    r.logAt p = .ok (if r.ordered ((modelKeys m channels).map value) then
      (modelKeys m channels).foldl (fun sum k => sum + logDensity b k.quantity (value k)) 0.0
    else Scalar.negInfinity) := by
  unfold logAt
  rw [values_of_build? hr hp]
  show Except.ok (logOfValues r _) = _
  rw [logOfValues, logSum_of_build? hr]

/-! ## Another order -/

/-- The order of pulses is kept or broken in each channel by itself. -/
theorem ordered_reordered (hr : build? m channels b = some (.ok r))
    (hr' : build? m channels' b = some (.ok r')) (h : channels.Perm channels') (value : Key → α) :
    r.ordered ((modelKeys m channels).map value) =
      r'.ordered ((modelKeys m channels').map value) := by
  rw [Bool.eq_iff_iff, ordered_iff hr, ordered_iff hr']
  simp only [h.mem_iff]

theorem satisfied_reordered (hr : build? m channels b = some (.ok r))
    (hr' : build? m channels' b = some (.ok r')) (h : channels.Perm channels')
    (hp : ∀ k ∈ modelKeys m channels, p[k.text]? = some (value k)) :
    r.satisfied p = r'.satisfied p := by
  have hp' : ∀ k ∈ modelKeys m channels', p[k.text]? = some (value k) :=
    fun k hk => hp k ((modelKeys_perm m h).mem_iff.mpr hk)
  rw [satisfied_eq hr hp, satisfied_eq hr' hp', ordered_reordered hr hr' h]

theorem logAt_reordered [Scalar.LawfulSum α] (hr : build? m channels b = some (.ok r))
    (hr' : build? m channels' b = some (.ok r')) (h : channels.Perm channels')
    (hp : ∀ k ∈ modelKeys m channels, p[k.text]? = some (value k)) : r.logAt p = r'.logAt p := by
  have hp' : ∀ k ∈ modelKeys m channels', p[k.text]? = some (value k) :=
    fun k hk => hp k ((modelKeys_perm m h).mem_iff.mpr hk)
  rw [logAt_eq hr hp, logAt_eq hr' hp', ordered_reordered hr hr' h,
    Scalar.LawfulSum.foldl_add_perm _ (modelKeys_perm m h)]

end Prior

end PulseFit
