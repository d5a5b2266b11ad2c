import Mathlib.Logic.Equiv.Fin.Rotate
import PulseFit.Proofs.Likelihood.Rate
import PulseFit.Proofs.Model.Renumbering

/-!
# Proofs.Likelihood.Renumbering — the numbers of the pulses have no part in a rate

A model with renumbered pulses adds up the same contributions in another order, if the parameters
are renumbered with the pulses (`superposition_renumber`).  Where sums may be rearranged the rate is
the same, and so is what is made of it.
-/

namespace PulseFit.ChannelLikelihood

open Scalar (LawfulSum)

variable {α : Type} [Scalar α] {l : ChannelLikelihood α} {m' : Model}

/-- A component of a pulse contributes the same under another number of the pulse. -/
theorem contribution_renumber (f : Equiv.Perm Nat) (hlensed : m'.lensed = l.model.lensed)
    (value : Key → α) (term : Component × Nat) :
    contribution { l with model := m' } (fun k => value (k.renumber f.symm)) (term.1, f term.2) =
      l.contribution value term := by
  have hown : valueAt { l with model := m' } (fun k => value (k.renumber f.symm)) (f term.2) =
      l.valueAt value term.2 := by
    funext q
    exact congrArg (fun i => value (.shape q i l.channel)) (f.symm_apply_apply term.2)
  unfold contribution
  simp only [hown, hlensed]
  rfl

variable [LawfulSum α]

/-- Arrays may be added in any order. -/
theorem foldl_zipWith_perm {xss yss : List (Array α)} (h : xss.Perm yss) (xs : Array α) :
    xss.foldl (·.zipWith (· + ·) ·) xs = yss.foldl (·.zipWith (· + ·) ·) xs := by
  refine h.foldl_eq' (fun ys _ zs _ xs => Array.ext ?_ fun k _ _ => ?_) xs
  · simp only [Array.size_zipWith]
    omega
  · simp only [Array.getElem_zipWith]
    exact LawfulSum.add_right_comm ..

/-- The superposition of a model with renumbered pulses is that of the model. -/
theorem superposition_renumber (f : Equiv.Perm Nat) (hlensed : m'.lensed = l.model.lensed)
    (hindices : ∀ c, (m'.indices c).Perm ((l.model.indices c).map f)) (value : Key → α) :
    superposition { l with model := m' } (fun k => value (k.renumber f.symm)) =
      l.superposition value := by
  have hcontributions :
      (m'.components.map (contribution { l with model := m' }
        fun k => value (k.renumber f.symm))).Perm
        (l.model.components.map (l.contribution value)) := by
    refine ((Model.components_perm hindices).map _).trans ?_
    rw [List.map_map]
    refine List.Perm.of_eq (List.map_congr_left fun term _ => ?_)
    exact contribution_renumber f hlensed value term
  exact foldl_zipWith_perm hcontributions _

/-- A model made of lists in which all pulses have other numbers has, with the parameters under the
new numbers of their pulses, the rate and the log-likelihood of the model. -/
theorem rate_renumber (l : ChannelLikelihood α) (π : Equiv.Perm (Fin l.model.size)) :
    ∃ m', Model.ofLists l.model.lensed (l.model.lists.map (renumber π)) = .ok m' ∧
      ∀ p : Assignment α, (∀ k ∈ l.required, k.text ∈ p) →
        ∃ r, l.rate p = .ok r ∧ rate { l with model := m' } (p.renumber π) = .ok r ∧
          logAt { l with model := m' } (p.renumber π) = l.logAt p := by
  obtain ⟨m', hm', hlensed, hindices⟩ := l.model.exists_renumbered π
  refine ⟨m', hm', fun p hp => ?_⟩
  let value (k : Key) : α := p.getD k.text 0.0
  have hvalue : ∀ k ∈ l.required, p[k.text]? = some (value k) :=
    fun k hk => Std.ExtTreeMap.getElem?_eq_some_getD (hp k hk)
  have hvalue' : ∀ k ∈ required { l with model := m' },
      (p.renumber π)[k.text]? = some (value (k.renumber (renumber π).symm)) := fun k hk =>
    Assignment.getElem?_renumber_of_mem_keys π hlensed hindices
      (fun k hk => hp k (mem_required.mpr hk)) 0.0 (mem_required.mp hk)
  have hrate : l.rate p = .ok (clip (l.superposition value)) := by rw [rate, sum_eq hvalue]
  have hrate' :
      rate { l with model := m' } (p.renumber π) = .ok (clip (l.superposition value)) := by
    rw [rate, sum_eq hvalue', superposition_renumber (renumber π) hlensed hindices]
  refine ⟨_, hrate, hrate', ?_⟩
  rw [logAt, logAt, hrate, hrate']
  rfl

/-- Three pulses of different shapes under a lens, two bins. -/
noncomputable def threePulses : ChannelLikelihood Exact :=
  ⟨⟨true, [⟨.fred, some .bessel⟩, ⟨.gaussian, none⟩, ⟨.convolution, none⟩], none⟩, .a,
    #[.real 0, .real 3], #[.real 1, .real 0], rfl⟩

/-- All parameters of a pulse are its number. -/
noncomputable def byNumber : Key → Exact
  | .shape _ i _ => .real i
  | _ => .real 1

/-- Every pulse gets the next number, the last one the first. -/
theorem rate_renumber_FbGCL :
    ∃ r, threePulses.rate (.ofPairs (threePulses.required.map fun k => (k.text, byNumber k))) =
        .ok r ∧
      rate { threePulses with
          model := ⟨true, [⟨.convolution, none⟩, ⟨.fred, some .bessel⟩, ⟨.gaussian, none⟩], none⟩ }
        (Assignment.renumber (finRotate 3)
          (.ofPairs (threePulses.required.map fun k => (k.text, byNumber k)))) = .ok r := by
  obtain ⟨m', hm', hall⟩ := rate_renumber threePulses (finRotate 3)
  have hlists : threePulses.model.lists.map (renumber (n := 3) (finRotate 3)) =
      { gaussian := [3], fred := [2], convolution := [1], bessel := [2] } := by decide
  have hmodel : Model.ofLists true
      { gaussian := [3], fred := [2], convolution := [1], bessel := [2] } =
      .ok ⟨true, [⟨.convolution, none⟩, ⟨.fred, some .bessel⟩, ⟨.gaussian, none⟩], none⟩ := by
    cbv
  obtain rfl := Except.ok.inj (hm'.symm.trans ((congrArg (Model.ofLists true) hlists).trans hmodel))
  obtain ⟨r, hr, hr', -⟩ := hall
    (.ofPairs (threePulses.required.map fun k => (k.text, byNumber k))) fun k hk => by
      rw [Assignment.mem_ofPairs, List.map_map]
      exact List.mem_map_of_mem hk
  exact ⟨r, hr, hr'⟩

end PulseFit.ChannelLikelihood
