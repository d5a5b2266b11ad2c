import PulseFit.Proofs.Likelihood.Reordering
import PulseFit.Proofs.Prior.Reordering

/-!
# Proofs.Reordering — the order of channels does not matter

A fit names its channels in some order.  The order shows in the places of parameters, in which
channel the parameters of the lens stand with, and in which error comes first, but in no value: not
in the density of a prior, nor in the order that it checks, nor in a joint likelihood
(`same_in_any_order`).
-/

namespace PulseFit

variable {α : Type} [Scalar α] {m : Model} {channels channels' : List Channel} {b : Bounds α}
  {r r' : Prior α} {p : Assignment α}

namespace Prior

/-- An assignment of all names of a prior has a value for every key. -/
theorem getElem?_of_mem_names (hr : build? m channels b = some (.ok r))
    (hp : ∀ name ∈ r.names, name ∈ p) :
    ∀ k ∈ modelKeys m channels, p[k.text]? = some (p.getD k.text 0.0) := by
  intro k hk
  apply Std.ExtTreeMap.getElem?_eq_some_getD
  apply hp
  rw [names_of_build? hr]
  exact List.mem_map_of_mem hk

theorem names_perm (hr : build? m channels b = some (.ok r))
    (hr' : build? m channels' b = some (.ok r')) (h : channels.Perm channels') :
    r.names.Perm r'.names := by
  rw [names_of_build? hr, names_of_build? hr']
  exact (modelKeys_perm m h).map Key.text

end Prior

open Scalar (LawfulOrder LawfulLog LawfulSum)

/-- Priors over the same channels in two orders have the same names, and say the same of every
assignment of all of them.  Joint likelihoods of the same channels of a series have the same value
or fail both. -/
theorem same_in_any_order [LawfulOrder α] [LawfulLog α] [LawfulSum α] (m : Model)
    (hb : b.validate = .ok ()) (h : channels.Perm channels') :
    (∃ r r', Prior.build? m channels b = some (.ok r) ∧
      Prior.build? m channels' b = some (.ok r') ∧
      r.names.Perm r'.names ∧ r.constraintNames.Perm r'.constraintNames ∧
      ∀ p : Assignment α, (∀ name ∈ r.names, name ∈ p) →
        ∃ verdict x, r.satisfied p = .ok verdict ∧ r'.satisfied p = .ok verdict ∧
          r.logAt p = .ok x ∧ r'.logAt p = .ok x) ∧
    ∀ s : BinnedCounts α,
      (s.valid = true → channels ≠ [] →
        ∃ j, JointLikelihood.ofSeries? s m channels = some (.ok j)) ∧
      ∀ j, JointLikelihood.ofSeries? s m channels = some (.ok j) →
        ∃ j', JointLikelihood.ofSeries? s m channels' = some (.ok j') ∧
          ∀ p : Assignment α, (∃ x, j.logAt p = .ok x ∧ j'.logAt p = .ok x) ∨
            ∃ e e', j.logAt p = .error e ∧ j'.logAt p = .error e' := by
  constructor
  · obtain ⟨r, hr⟩ := Prior.exists_build? hb m channels
    obtain ⟨r', hr'⟩ := Prior.exists_build? hb m channels'
    refine ⟨r, r', hr, hr', Prior.names_perm hr hr' h, Prior.constraintNames_perm hr hr' h, ?_⟩
    intro p hp
    have hvalue := Prior.getElem?_of_mem_names hr hp
    refine ⟨_, _, Prior.satisfied_eq hr hvalue, ?_, Prior.logAt_eq hr hvalue, ?_⟩
    · rw [← Prior.satisfied_reordered hr hr' h hvalue, Prior.satisfied_eq hr hvalue]
    · rw [← Prior.logAt_reordered hr hr' h hvalue, Prior.logAt_eq hr hvalue]
  · intro s
    refine ⟨fun hs hne => JointLikelihood.exists_ofSeries? hs m hne, ?_⟩
    intro j hj
    obtain ⟨j', hj', hperm⟩ := JointLikelihood.exists_ofSeries?_reordered h hj
    exact ⟨j', hj', JointLikelihood.logAt_reordered hperm⟩

/-- A lensed pulse with a residual in two channels, the first of them given twice, with a series of
one bin. -/
theorem same_in_any_order_GsL :
    ∃ r r' j j' p,
      Prior.build? ⟨true, [⟨.gaussian, some .sineGaussian⟩], none⟩ [.a, .b, .a]
        tenBounds = some (.ok r) ∧
      Prior.build? ⟨true, [⟨.gaussian, some .sineGaussian⟩], none⟩ [.b, .a, .a]
        tenBounds = some (.ok r') ∧
      JointLikelihood.ofSeries?
        ⟨#[.real 0], #[.real 1], ⟨1, 4, #[.real 3, .real 2, .real 1, .real 0]⟩⟩
        ⟨true, [⟨.gaussian, some .sineGaussian⟩], none⟩ [.a, .b, .a] = some (.ok j) ∧
      JointLikelihood.ofSeries?
        ⟨#[.real 0], #[.real 1], ⟨1, 4, #[.real 3, .real 2, .real 1, .real 0]⟩⟩
        ⟨true, [⟨.gaussian, some .sineGaussian⟩], none⟩ [.b, .a, .a] = some (.ok j') ∧
      r.names.Perm r'.names ∧ r.satisfied p = r'.satisfied p ∧ r.logAt p = r'.logAt p ∧
      ((∃ x, j.logAt p = .ok x ∧ j'.logAt p = .ok x) ∨
        ∃ e e', j.logAt p = .error e ∧ j'.logAt p = .error e') := by
  obtain ⟨⟨r, r', hr, hr', hnames, -, hprior⟩, hseries⟩ :=
    same_in_any_order ⟨true, [⟨.gaussian, some .sineGaussian⟩], none⟩ validate_tenBounds
      (List.Perm.swap .b .a [.a])
  obtain ⟨hexists, hjoint⟩ := hseries
    ⟨#[.real 0], #[.real 1], ⟨1, 4, #[.real 3, .real 2, .real 1, .real 0]⟩⟩
  have hvalid : BinnedCounts.valid
      (⟨#[.real 0], #[.real 1], ⟨1, 4, #[.real 3, .real 2, .real 1, .real 0]⟩⟩ :
        BinnedCounts Exact) = true := by
    have hlt : Exact.real 0 < .real 1 := by norm_num
    simp [BinnedCounts.valid, Channel.all, hlt]
  obtain ⟨j, hj⟩ := hexists hvalid (List.cons_ne_nil _ _)
  obtain ⟨j', hj', hlog⟩ := hjoint j hj
  have hp : ∀ name ∈ r.names,
      name ∈ Assignment.ofPairs (r.names.map fun name => (name, Exact.real 1)) := by
    intro name hname
    rw [Assignment.mem_ofPairs, List.map_map]
    exact List.mem_map_of_mem hname
  obtain ⟨verdict, x, hsatisfied, hsatisfied', hlogAt, hlogAt'⟩ := hprior _ hp
  exact ⟨r, r', j, j', _, hr, hr', hj, hj', hnames, hsatisfied.trans hsatisfied'.symm,
    hlogAt.trans hlogAt'.symm, hlog _⟩

end PulseFit
