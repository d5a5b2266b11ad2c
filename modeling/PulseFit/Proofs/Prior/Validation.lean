import PulseFit.Proofs.Prior.Build
import PulseFit.Proofs.Scalar.Infinities

/-!
# Proofs.Prior.Validation — which bounds have a prior

Building a prior succeeds exactly if all bounds are sound: finite, the lower below the upper, and
positive where the quantity is log-uniform.  Otherwise the error names the first quantity whose
bounds are not (`build?_iff_sound`).  Bounds may hold anything, values that are no number included,
and nothing else can go wrong: sound bounds give every quantity a distribution, and a chain asks for
parameters of the model only.  The arithmetic may round; of logarithms it is asked that those of
positive numbers are numbers and keep the order.
-/

namespace PulseFit

open Scalar (isFinite LawfulOrder LawfulInfinity LawfulLog)

variable {α : Type} [Scalar α]

namespace Bounds

/-- The quantities whose bounds are checked, in the order in which they are. -/
def checked : List Quantity :=
  [.shape .start, .lens .timeDelay, .lens .magnificationRatio, .background, .shape .scale,
    .shape .sigma, .shape .tau, .shape .xi, .shape .gamma, .shape .nu, .shape .sineAmplitude,
    .shape .sineLambda, .shape .sineOmega, .shape .besselAmplitude, .shape .besselOmega,
    .shape .besselS]

/-- Bounds between which a quantity has a distribution. -/
structure Sound (b : Bounds α) (q : Quantity) : Prop where
  lo_finite : isFinite (b.interval q).lo = true
  hi_finite : isFinite (b.interval q).hi = true
  lo_lt_hi : (b.interval q).lo < (b.interval q).hi
  lo_pos : q ∉ uniformQuantities → 0.0 < (b.interval q).lo

/-- The test that the bounds of a quantity have to pass. -/
def passes (b : Bounds α) (q : Quantity) : Bool :=
  (b.interval q).admissible (decide (q ∉ uniformQuantities))

theorem passes_iff [LawfulOrder α] [LawfulInfinity α] {b : Bounds α} {q : Quantity} :
    b.passes q = true ↔ b.Sound q := by
  rw [passes, Interval.admissible_iff, Interval.proper_iff, decide_eq_true_eq]
  constructor
  · rintro ⟨⟨hlo, hhi, hlt⟩, hpos⟩
    exact ⟨hlo, hhi, hlt,
      fun hq => LawfulOrder.lt_of_not_le hlo LawfulOrder.isFinite_zero (hpos hq)⟩
  · intro h
    exact ⟨⟨h.lo_finite, h.hi_finite, h.lo_lt_hi⟩,
      fun hq => LawfulInfinity.not_le_of_lt (h.lo_pos hq)⟩

/-- Both tables together hold the checked quantities with their intervals. -/
theorem signed_append_positive (b : Bounds α) :
    b.signed ++ b.positive = checked.map fun q => (q, b.interval q) := rfl

/-- The two tables are searched as one. -/
theorem violation?_eq (b : Bounds α) :
    b.violation? = (checked.find? (!b.passes ·)).map fun q => (q, b.interval q) := by
  have hsigned : b.signed.find? (fun x => !x.2.admissible false) =
      b.signed.find? fun x => !b.passes x.1 := by
    refine List.find?_congr fun ⟨q, i⟩ hx => ?_
    obtain ⟨hq, rfl⟩ := uniform_of_mem_signed hx
    simp [passes, hq]
  have hpositive : b.positive.find? (fun x => !x.2.admissible true) =
      b.positive.find? fun x => !b.passes x.1 := by
    refine List.find?_congr fun ⟨q, i⟩ hx => ?_
    obtain ⟨hq, rfl⟩ := not_uniform_of_mem_positive hx
    simp [passes, hq]
  rw [violation?, hsigned, hpositive, ← List.find?_append, signed_append_positive, List.find?_map]
  rfl

/-- Bounds are accepted if all are sound; else the first that are not are the error. -/
theorem validate_cases [LawfulOrder α] [LawfulInfinity α] (b : Bounds α) :
    ((∀ q ∈ checked, b.Sound q) ∧ b.validate = .ok ()) ∨
      ∃ before q after, checked = before ++ q :: after ∧ (∀ p ∈ before, b.Sound p) ∧ ¬ b.Sound q ∧
        b.validate = .error (.invalidBounds q (b.interval q).lo (b.interval q).hi) := by
  cases hfind : checked.find? (!b.passes ·) with
  | none =>
    left
    refine ⟨fun q hq => ?_, ?_⟩
    · have hpasses := List.find?_eq_none.mp hfind q hq
      exact passes_iff.mp (by simpa using hpasses)
    · rw [validate, violation?_eq, hfind]
      rfl
  | some q =>
    right
    obtain ⟨hq, before, after, hchecked, hbefore⟩ := List.find?_eq_some_iff_append.mp hfind
    refine ⟨before, q, after, hchecked, fun p hp => ?_, fun hsound => ?_, ?_⟩
    · exact passes_iff.mp (by simpa using hbefore p hp)
    · rw [passes_iff.mpr hsound] at hq
      cases hq
    · rw [validate, violation?_eq, hfind]
      rfl

theorem sound_of_validate [LawfulOrder α] [LawfulInfinity α] {b : Bounds α}
    (h : b.validate = .ok ()) : ∀ q ∈ checked, b.Sound q := by
  rcases b.validate_cases with ⟨hsound, -⟩ | ⟨before, q, after, _, _, _, herror⟩
  · exact hsound
  · rw [h] at herror
    cases herror

end Bounds

namespace Prior

open Bounds (checked)

variable [LawfulOrder α] [LawfulInfinity α] [LawfulLog α]

/-- A prior is built exactly from sound bounds.  The error names the first quantity whose bounds are
not sound; it is never that a chain asks for a parameter without a prior, and no distribution is
refused after the bounds were accepted. -/
theorem build?_iff_sound (m : Model) (channels : List Channel) (b : Bounds α) :
    ((∃ r, build? m channels b = some (.ok r)) ↔ ∀ q ∈ checked, b.Sound q) ∧
    ((¬ ∀ q ∈ checked, b.Sound q) → ∃ before q after, checked = before ++ q :: after ∧
      (∀ p ∈ before, b.Sound p) ∧ ¬ b.Sound q ∧
        build? m channels b =
          some (.error (.invalidBounds q (b.interval q).lo (b.interval q).hi))) ∧
    (∀ name, build? m channels b ≠ some (.error (.unknownPrior name))) ∧
    build? m channels b ≠ none := by
  rcases b.validate_cases with ⟨hsound, hb⟩ | ⟨before, q, after, hchecked, hbefore, hq, hb⟩
  · obtain ⟨r, hr⟩ := exists_build? hb m channels
    refine ⟨iff_of_true ⟨r, hr⟩ hsound, fun hnot => absurd hsound hnot, ?_, ?_⟩
    · intro name hname
      rw [hr] at hname
      cases hname
    · rw [hr]
      exact Option.some_ne_none _
  · have hbuild : build? m channels b =
        some (.error (.invalidBounds q (b.interval q).lo (b.interval q).hi)) := by
      rw [build?, hb]
    have hmem : q ∈ checked := hchecked ▸ List.mem_append_right before List.mem_cons_self
    refine ⟨iff_of_false ?_ fun hsound => hq (hsound q hmem),
      fun _ => ⟨before, q, after, hchecked, hbefore, hq, hbuild⟩, ?_, ?_⟩
    · rintro ⟨r, hr⟩
      rw [hbuild] at hr
      cases hr
    · intro name hname
      rw [hbuild] at hname
      cases hname
    · rw [hbuild]
      exact Option.some_ne_none _

/-- A lensed pulse with the usual bounds, on a window of ten seconds and on one without an end. -/
theorem build?_iff_sound_GL :
    (∃ r, build? ⟨true, [⟨.gaussian, none⟩], none⟩ [.a, .b] tenBounds = some (.ok r)) ∧
    build? ⟨true, [⟨.gaussian, none⟩], none⟩ [.a, .b] (Bounds.ofWindow ⟨Exact.real 0, .posInf⟩) =
      some (.error (.invalidBounds (.shape .start) (.real 0) .posInf)) := by
  have hstart : ¬ (Bounds.ofWindow ⟨Exact.real 0, .posInf⟩).Sound (.shape .start) :=
    fun h => Bool.false_ne_true h.hi_finite
  refine ⟨(build?_iff_sound _ _ _).1.mpr (Bounds.sound_of_validate validate_tenBounds), ?_⟩
  obtain ⟨before, q, after, hchecked, hbefore, -, hbuild⟩ :=
    (build?_iff_sound ⟨true, [⟨.gaussian, none⟩], none⟩ [.a, .b]
      (Bounds.ofWindow ⟨Exact.real 0, .posInf⟩)).2.1 fun h => hstart (h _ List.mem_cons_self)
  -- nothing is checked before the window
  cases before with
  | nil =>
    obtain rfl : Quantity.shape .start = q := (List.cons.inj hchecked).1
    exact hbuild
  | cons p before =>
    obtain rfl : Quantity.shape .start = p := (List.cons.inj hchecked).1
    exact absurd (hbefore _ List.mem_cons_self) hstart

end Prior

end PulseFit
