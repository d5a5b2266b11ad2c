import PulseFit.Proofs.Rate.Convolution
import PulseFit.Proofs.Scalar.Sums

/-!
# Proofs.Rate.Component — the rate of a component by the names of its quantities

`ofComponent` takes every argument of a profile from the quantity of the same meaning.  Adding a
component `factor` times adds `factor` times this rate (`addComponent?_eq`), also for a convolution,
whose factor goes in before the sums over all times are taken.
-/

namespace PulseFit.Rate

variable {α : Type} [Scalar α]

/-- The rate of a component at the times. -/
def ofComponent (c : Component) (value : ShapeQuantity → α) (times : Array α) : Array α :=
  match c with
  | .pulse .gaussian => times.map (gaussian (value .start) (value .scale) (value .sigma))
  | .pulse .fred =>
    times.map (fred (value .start) (value .scale) (value .tau) (value .xi))
  | .pulse .fredx =>
    times.map (fredx (value .start) (value .scale) (value .tau) (value .xi) (value .gamma)
      (value .nu))
  | .pulse .convolution =>
    decayingGaussian (value .start) (value .scale) (value .sigma) (value .tau) times
  | .residual .sineGaussian =>
    times.map (sineGaussian (value .sineAmplitude) (value .residualBegin) (value .sineLambda)
      (value .sineOmega) (value .sinePhi))
  | .residual .bessel =>
    times.map (bessel (value .besselAmplitude) (value .besselOmega) (value .besselS)
      (value .residualBegin) (value .besselDelta))

/-- The values of a component whose image a lens delays. -/
def delayed (c : Component) (delay : α) (value : ShapeQuantity → α) (q : ShapeQuantity) : α :=
  if q = c.timeQuantity then value q + delay else value q

/-- Delaying the value at the place of the time is delaying the time. -/
theorem modify_timeIndex (c : Component) (delay : α) (value : ShapeQuantity → α) :
    (c.quantities.map value).modify c.timeIndex (· + delay) =
      c.quantities.map (delayed c delay value) := by
  rcases c with (_ | _ | _ | _) | (_ | _) <;> rfl

/-- Adding a profile time by time is adding the array of its values. -/
theorem zipWith_profile (f : α → α) (times out : Array α) (factor : α) :
    out.zipWith (fun y t => y + factor * f t) times =
      out.zipWith (fun y r => y + factor * r) (times.map f) := by
  rw [Array.zipWith_map_right]

/-- A sum keeps its size when a component is added to it. -/
theorem size_of_addComponent? {c : Component} {values : List α} {times : Array α} {factor : α}
    {out sum : Array α} (hout : out.size = times.size)
    (h : addComponent? c values times factor out = some sum) : sum.size = out.size := by
  unfold addComponent? at h
  split at h
  · next start scale sigma tau =>
    obtain ⟨entries, norm, hentries, -, hadd⟩ := addConvolution?_eq
      (a := times.map (gaussian (Scalar.mean times) 1.0 sigma)) (v := times.map (decay tau start))
      (by simp)
    cases (hadd (factor * scale) out (hout.trans (by simp))).symm.trans h
    rw [Array.size_zipWith, hentries, Array.size_map, hout, Nat.min_self]
  · split at h
    · rw [if_pos hout] at h
      cases h
      rw [Array.size_zipWith, hout, Nat.min_self]
    · cases h

variable [Scalar.LawfulSum α]

open Scalar (LawfulSum)

/-! ## Convolutions -/

/-- What a convolution adds is the factor times entries that depend on the arrays alone. -/
theorem exists_entries {a v : Array α} (hsize : v.size = a.size) :
    ∃ entries : Array α, entries.size = a.size ∧ ∀ factor (out : Array α), out.size = a.size →
      addConvolution? a v factor out =
        some (out.zipWith (fun y x => y + factor * x) entries) := by
  obtain ⟨entries, norm, hentries, hnorm | ⟨n, hnorm⟩, hadd⟩ := addConvolution?_eq hsize
  · refine ⟨entries, hentries, fun factor out hout => ?_⟩
    rw [hadd factor out hout, hnorm]
  · refine ⟨entries.map (1.0 / Scalar.ofNat n * ·), ?_, fun factor out hout => ?_⟩
    · rw [Array.size_map, hentries]
    · rw [hadd factor out hout, hnorm, Array.zipWith_map_right]
      simp only [LawfulSum.div_eq factor, LawfulSum.mul_assoc]

/-- A convolved decay is added with its factor, which goes in before the sums are taken. -/
theorem addDecayingGaussian?_eq (start scale sigma tau : α) (times : Array α) :
    (decayingGaussian start scale sigma tau times).size = times.size ∧
      ∀ factor (out : Array α), out.size = times.size →
        addDecayingGaussian? start scale sigma tau times factor out =
          some (out.zipWith (fun y r => y + factor * r)
            (decayingGaussian start scale sigma tau times)) := by
  obtain ⟨entries, hsize, hadd⟩ := exists_entries
    (a := times.map (gaussian (Scalar.mean times) 1.0 sigma)) (v := times.map (decay tau start))
    (by simp)
  rw [Array.size_map] at hsize
  have hadd (factor : α) {out : Array α} (hout : out.size = times.size) :
      addDecayingGaussian? start scale sigma tau times factor out =
        some (out.zipWith (fun y x => y + factor * scale * x) entries) :=
    hadd (factor * scale) out (by simpa using hout)
  have hrate : decayingGaussian start scale sigma tau times = entries.map (scale * ·) := by
    unfold decayingGaussian
    rw [hadd 1.0 (by simp), Option.getD_some]
    refine Array.ext (by simp [hsize]) fun k _ _ => ?_
    simp [LawfulSum.one_mul, LawfulSum.zero_add]
  rw [hrate]
  refine ⟨by simpa using hsize, fun factor out hout => ?_⟩
  rw [hadd factor hout, Array.zipWith_map_right]
  simp only [LawfulSum.mul_assoc]

/-! ## Components -/

theorem size_ofComponent (c : Component) (value : ShapeQuantity → α) (times : Array α) :
    (ofComponent c value times).size = times.size := by
  rcases c with (_ | _ | _ | _) | (_ | _)
  case pulse.convolution => exact (addDecayingGaussian?_eq _ _ _ _ times).1
  all_goals exact Array.size_map

/-- What a component adds to a sum is the factor times its rate. -/
theorem addComponent?_eq (c : Component) (value : ShapeQuantity → α) {times : Array α}
    (factor : α) {out : Array α} (hout : out.size = times.size) :
    addComponent? c (c.quantities.map value) times factor out =
      some (out.zipWith (fun y r => y + factor * r) (ofComponent c value times)) := by
  rcases c with (_ | _ | _ | _) | (_ | _)
  case pulse.convolution => exact (addDecayingGaussian?_eq _ _ _ _ times).2 factor out hout
  -- all others have a profile, which is added time by time
  all_goals exact (if_pos hout).trans (congrArg some (zipWith_profile _ times out factor))

end PulseFit.Rate
