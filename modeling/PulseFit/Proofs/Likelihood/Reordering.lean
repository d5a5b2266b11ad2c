import Mathlib.Data.List.Perm.Basic
import PulseFit.Proofs.Likelihood.Series
import PulseFit.Proofs.Scalar.Sums

/-!
# Proofs.Likelihood.Reordering — channels of a joint likelihood in another order

Where sums may be rearranged, a joint likelihood over the same channels in another order has the
same value, or fails as well, though perhaps with the error of another channel (`logAt_reordered`).
From a series a joint likelihood is made in any order of the channels or in none
(`exists_ofSeries?_reordered`).
-/

namespace PulseFit

variable {α : Type} [Scalar α]

namespace JointLikelihood

open Scalar (LawfulSum)

/-! ## From a series -/

/-- If there is a joint likelihood over channels, there is one over the same in another order. -/
theorem exists_ofSeries?_reordered {s : BinnedCounts α} {m : Model}
    {channels channels' : List Channel} {j : JointLikelihood α} (h : channels.Perm channels')
    (hj : ofSeries? s m channels = some (.ok j)) :
    ∃ j', ofSeries? s m channels' = some (.ok j') ∧ j.channels.Perm j'.channels := by
  obtain ⟨ls, hls, hperm⟩ := List.perm_comp_forall₂ h.symm (ofSeries?_eq_ok_iff.mp hj)
  have hne : ls ≠ [] := by
    rintro rfl
    exact j.channels_ne_nil (List.nil_perm.mp hperm)
  exact ⟨⟨ls, hne⟩, ofSeries?_eq_ok_iff.mpr hls, hperm.symm⟩

/-! ## The sum -/

/-- A joint log-likelihood exists exactly if every channel has one. -/
theorem exists_logAt_iff {j : JointLikelihood α} {p : Assignment α} :
    (∃ x, j.logAt p = .ok x) ↔ ∀ l ∈ j.channels, ∃ x, l.logAt p = .ok x := by
  constructor
  · rintro ⟨x, hx⟩ l hl
    obtain ⟨sum, next, hstep⟩ := exists_of_foldlM_eq_ok hx l hl
    cases hlog : l.logAt p with
    | ok y => exact ⟨y, rfl⟩
    | error e =>
      rw [hlog] at hstep
      cases hstep
  · intro h
    apply exists_foldlM_eq_ok
    intro l hl sum
    obtain ⟨x, hx⟩ := h l hl
    exact ⟨sum + x, by rw [hx]; rfl⟩

/-- In another order of the channels the value is the same, and where there is none there is
none. -/
theorem logAt_reordered [LawfulSum α] {j j' : JointLikelihood α}
    (h : j.channels.Perm j'.channels) (p : Assignment α) :
    (∃ x, j.logAt p = .ok x ∧ j'.logAt p = .ok x) ∨
      ∃ e e', j.logAt p = .error e ∧ j'.logAt p = .error e' := by
  have hboth : (∃ x, j.logAt p = .ok x) ↔ ∃ x, j'.logAt p = .ok x := by
    rw [exists_logAt_iff, exists_logAt_iff]
    simp only [h.mem_iff]
  by_cases hall : ∀ l ∈ j.channels, ∃ x, l.logAt p = .ok x
  · let value (l : ChannelLikelihood α) : α := (l.logAt p).toOption.getD 0.0
    have hvalue : ∀ l ∈ j.channels, l.logAt p = .ok (value l) := by
      intro l hl
      obtain ⟨x, hx⟩ := hall l hl
      simp only [value, hx]
      rfl
    have hvalue' : ∀ l ∈ j'.channels, l.logAt p = .ok (value l) :=
      fun l hl => hvalue l (h.mem_iff.mpr hl)
    refine .inl ⟨_, logAt_eq_ok hvalue, ?_⟩
    rw [logAt_eq_ok hvalue', LawfulSum.foldl_add_perm value h]
  · right
    rw [← exists_logAt_iff] at hall
    cases hj : j.logAt p with
    | ok x => exact absurd ⟨x, hj⟩ hall
    | error e =>
      cases hj' : j'.logAt p with
      | ok x => exact absurd (hboth.mpr ⟨x, hj'⟩) hall
      | error e' => exact ⟨e, e', rfl, rfl⟩

end JointLikelihood

end PulseFit
