import PulseFit.Prior.Json
import PulseFit.Proofs.Decimal
import PulseFit.Proofs.Prior.Attempts
import PulseFit.Proofs.Scalar.Infinities
import PulseFit.Proofs.Scalar.Sums

/-!
# Proofs.Prior.Ranges — which ranges have a distribution

A distribution is refused where the logarithm of its density is no number, and that of zero and of
infinity are numbers.  So a uniform distribution is accepted on a single point and on an infinite
range, and a log-uniform one from zero and up to infinity (`Kind.Admits`); a text that holds a range
is judged in the same way.  Of these ranges only those that are `Kind.Proper` have a density:
without rounding it is finite on the whole range, as are all draws, while on the others it is finite
nowhere (`accepted_ranges`).
-/

namespace PulseFit

namespace Exact

open Scalar (isFinite)

/-- A difference of two numbers in their order that are not both finite. -/
theorem sub_of_lt {x y : Exact} (hlt : x < y)
    (h : ¬ (isFinite x = true ∧ isFinite y = true)) : y - x = posInf := by
  cases x <;> cases y <;> first | rfl | exact hlt.elim | exact absurd ⟨rfl, rfl⟩ h

theorem isFinite_sub {x y : Exact} (h : isFinite (x - y) = true) :
    isFinite x = true ∧ isFinite y = true := by
  cases x <;> cases y <;> first | exact ⟨rfl, rfl⟩ | cases h

theorem pos_of_isFinite_ln {x : Exact} (h : isFinite (Scalar.ln x) = true) :
    isFinite x = true ∧ 0.0 < x := by
  rw [zero_eq]
  cases x with
  | real x =>
    refine ⟨rfl, real_lt_real.mpr (lt_of_not_ge fun hle => ?_)⟩
    have hln : Scalar.ln (real x) = if x = 0 then negInf else nan := if_neg hle.not_gt
    rw [hln] at h
    split at h <;> cases h
  | posInf => cases h
  | negInf => cases h
  | nan => cases h

theorem mul_posInf {x : Exact} (hx : 0.0 ≤ x) : x * posInf = posInf ∨ x * posInf = nan := by
  rw [zero_eq] at hx
  cases x with
  | real x =>
    rcases (real_le_real.mp hx).eq_or_lt with rfl | hpos
    · exact .inr infinityOf_zero
    · exact .inl (infinityOf_pos hpos)
  | posInf => exact .inl rfl
  | negInf => exact hx.elim
  | nan => exact hx.elim

/-- No place from an end towards infinity is finite. -/
theorem add_mul_posInf {x y u : Exact} (hlt : x < y) (hu : 0.0 ≤ u) :
    x + u * posInf = posInf ∨ x + u * posInf = nan := by
  rcases mul_posInf hu with h | h
  · rw [h]
    cases x with
    | real x => exact .inl rfl
    | posInf => cases y <;> exact hlt.elim
    | negInf => exact .inr rfl
    | nan => exact .inr rfl
  · rw [h]
    cases x <;> exact .inr rfl

end Exact

namespace Marginal

open Scalar (isFinite isNaN ln LawfulOrder LawfulInfinity LawfulLog LawfulLogEnds)

/-- The kinds of distributions. -/
inductive Kind where
  | uniform | logUniform
  deriving DecidableEq, Repr

namespace Kind

/-- The name in a configuration text. -/
def name : Kind → String
  | uniform => "Uniform"
  | logUniform => "LogUniform"

variable {α : Type} [Scalar α]

/-- The distribution of a kind on a range, if it is accepted. -/
def make? : Kind → α → α → Option (Marginal α)
  | uniform => uniform?
  | logUniform => logUniform?

/-- The ranges on which the distribution of a kind is accepted. -/
def Admits : Kind → α → α → Prop
  | uniform, left, right =>
    left < right ∨ isFinite left = true ∧ isFinite right = true ∧ left ≤ right
  | logUniform, left, right => 0.0 ≤ left ∧ left < right

/-- The ranges on which the distribution of a kind has a density. -/
structure Proper (kind : Kind) (left right : α) : Prop where
  left_finite : isFinite left = true
  right_finite : isFinite right = true
  left_lt_right : left < right
  left_pos : kind = logUniform → 0.0 < left

theorem Proper.admits [LawfulOrder α] {kind : Kind} {left right : α}
    (h : kind.Proper left right) : kind.Admits left right := by
  cases kind with
  | uniform => exact .inl h.left_lt_right
  | logUniform => exact ⟨LawfulOrder.le_of_lt (h.left_pos rfl), h.left_lt_right⟩

end Kind

/-! ## Construction -/

section

variable {α : Type} [Scalar α] [LawfulOrder α] [LawfulLog α] [LawfulLogEnds α] {x y : α}

/-- A length has a log-density exactly if it is not negative. -/
theorem isNaN_logDensityOf_iff : isNaN (logDensityOf x) = false ↔ 0.0 ≤ x := by
  rw [logDensityOf, LawfulOrder.isNaN_neg]
  exact ⟨LawfulLogEnds.zero_le_of_ln, LawfulLog.isNaN_ln⟩

variable [LawfulInfinity α]

theorem exists_uniform?_iff : (∃ d, uniform? x y = some d) ↔ 0.0 ≤ y - x := by
  constructor
  · rintro ⟨d, hd⟩
    exact isNaN_logDensityOf_iff.mp (uniform?_eq_some hd).2.2.1
  · intro h
    obtain ⟨hx, hy⟩ := Scalar.isNaN_of_zero_le_sub h
    have hdensity := isNaN_logDensityOf_iff.mpr h
    exact ⟨.uniform x y (logDensityOf (y - x)), by simp [uniform?, hx, hy, hdensity]⟩

theorem exists_logUniform?_iff :
    (∃ d, logUniform? x y = some d) ↔ x < y ∧ 0.0 ≤ ln y - ln x := by
  constructor
  · rintro ⟨d, hd⟩
    unfold logUniform? at hd
    dsimp only at hd
    split at hd
    · next hcond =>
      simp only [Bool.and_eq_true, decide_eq_true_eq, Bool.not_eq_true'] at hcond
      exact ⟨hcond.1.1.1, isNaN_logDensityOf_iff.mp hcond.2⟩
    · cases hd
  · rintro ⟨hlt, h⟩
    obtain ⟨hx, hy⟩ := Scalar.isNaN_of_zero_le_sub h
    have hdensity := isNaN_logDensityOf_iff.mpr h
    exact ⟨.logUniform (ln x) (ln y) (logDensityOf (ln y - ln x)),
      by simp [logUniform?, hlt, hx, hy, hdensity]⟩

/-- Logarithms of two numbers in their order are in their order, and different at the ends. -/
theorem zero_le_ln_sub_iff (hlt : x < y) : 0.0 ≤ ln y - ln x ↔ 0.0 ≤ x := by
  constructor
  · intro h
    exact LawfulLogEnds.zero_le_of_ln (Scalar.isNaN_of_zero_le_sub h).1
  · intro hx
    rw [LawfulInfinity.zero_le_sub_iff]
    by_cases hends : x ≤ 0.0 ∨ isFinite y = false
    · exact .inl (LawfulLogEnds.ln_lt_ln hx hlt hends)
    · obtain ⟨hpos, hy⟩ := not_or.mp hends
      have hy : isFinite y = true := Bool.not_eq_false _ ▸ hy
      have hfinite := LawfulInfinity.isFinite_of_between LawfulOrder.isFinite_zero hx hlt
      have hpos : (0.0 : α) < x := LawfulOrder.lt_of_not_le hfinite LawfulOrder.isFinite_zero hpos
      exact .inr ⟨LawfulLog.isFinite_ln hfinite hpos,
        LawfulLog.isFinite_ln hy (LawfulOrder.lt_trans hpos hlt),
        LawfulLog.ln_le_ln hpos hy (LawfulOrder.le_of_lt hlt)⟩

theorem Kind.exists_make?_iff {kind : Kind} :
    (∃ d, kind.make? x y = some d) ↔ kind.Admits x y := by
  cases kind with
  | uniform => exact exists_uniform?_iff.trans LawfulInfinity.zero_le_sub_iff
  | logUniform =>
    refine exists_logUniform?_iff.trans ?_
    rw [Kind.Admits, and_comm, and_congr_left_iff]
    exact zero_le_ln_sub_iff

end

/-! ## Reading -/

section

variable {α : Type} [Scalar α] {kind : Kind} {left right : α} {text : String} {d : Marginal α}

/-- A text that holds a kind and a range. -/
def Kind.Written (kind : Kind) (left right : α) (text : String) : Prop :=
  ∃ front v rest, kind? text.toList = some (some kind.name, front) ∧
    Json.readFront? front = some (v, rest) ∧ closes rest = true ∧
    ((Json.allFields? ["range"] v).bind fun vs => vs.head?.bind range?) = some (left, right)

/-- What a range is read as. -/
def Kind.judge (kind : Kind) (left right : α) : Except MarginalError (Marginal α) :=
  match kind.make? left right with
  | some d => .ok d
  | none => .error .improper

theorem Kind.judge_eq_ok_iff : kind.judge left right = .ok d ↔ kind.make? left right = some d := by
  rw [judge]
  cases kind.make? left right with
  | none => exact iff_of_false nofun nofun
  | some d' => rw [Except.ok.injEq, Option.some.injEq]

theorem ofRange_name {v : Json.Value}
    (hrange : ((Json.allFields? ["range"] v).bind fun vs => vs.head?.bind range?) =
      some (left, right)) : ofRange (some kind.name) v = kind.judge left right := by
  cases kind <;> (simp only [ofRange, hrange]; rfl)

/-- A record that is read has a kind and a range. -/
theorem exists_of_ofRange {name : Option String} {v : Json.Value} (h : ofRange name v = .ok d) :
    ∃ (kind : Kind) (left right : α), name = some kind.name ∧
      ((Json.allFields? ["range"] v).bind fun vs => vs.head?.bind range?) = some (left, right) := by
  unfold ofRange at h
  dsimp only at h
  split at h
  · next left right hmake hrange =>
    refine (?_ : ∃ kind : Kind, name = some kind.name).imp fun kind hkind =>
      ⟨left, right, hkind, hrange⟩
    split at hmake
    · next hname => exact ⟨.uniform, hname⟩
    · split at hmake
      · next hname => exact ⟨.logUniform, hname⟩
      · cases hmake
  · cases h

/-- A text is judged by its range. -/
theorem read_of_written (h : kind.Written left right text) :
    read text = kind.judge left right := by
  obtain ⟨front, v, rest, hkind, hfront, hcloses, hrange⟩ := h
  rw [read, hkind]
  dsimp only
  rw [hfront]
  dsimp only
  rw [ofRange_name hrange, hcloses]
  cases kind.judge left right <;> rfl

theorem exists_written_of_read (h : read text = .ok d) :
    ∃ (kind : Kind) (left right : α), kind.Written left right text := by
  unfold read at h
  split at h
  · cases h
  · next name front hkind =>
    split at h
    · cases h
    · next v rest hfront =>
      cases hrecord : (ofRange name v : Except MarginalError (Marginal α)) with
      | error error =>
        rw [hrecord] at h
        cases h
      | ok d' =>
        cases hcloses : closes rest with
        | false =>
          rw [hrecord, hcloses] at h
          cases h
        | true =>
          obtain ⟨kind, left, right, rfl, hrange⟩ := exists_of_ofRange hrecord
          exact ⟨kind, left, right, front, v, rest, hkind, hfront, hcloses, hrange⟩

/-- What is read is the distribution of a kind on a range that the text holds. -/
theorem read_eq_ok_iff :
    read text = .ok d ↔ ∃ (kind : Kind) (left right : α),
      kind.Written left right text ∧ kind.make? left right = some d := by
  constructor
  · intro h
    obtain ⟨kind, left, right, hwritten⟩ := exists_written_of_read h
    rw [read_of_written hwritten, Kind.judge_eq_ok_iff] at h
    exact ⟨kind, left, right, hwritten, h⟩
  · rintro ⟨kind, left, right, hwritten, hd⟩
    rw [read_of_written hwritten, Kind.judge_eq_ok_iff]
    exact hd

end

/-! ## Densities and draws -/

namespace Kind

variable {α : Type} [Scalar α]

/-- What is uniform: a value, or its logarithm. -/
def scale : Kind → α → α
  | uniform, x => x
  | logUniform, x => ln x

/-- The value at a place of the scale. -/
def unscale : Kind → α → α
  | uniform, x => x
  | logUniform, x => Scalar.exp x

end Kind

section

variable {kind : Kind} {left right x u : Exact} {d : Marginal Exact}

theorem isProper_of_make? (h : kind.Proper left right) (hd : kind.make? left right = some d) :
    d.IsProper := by
  obtain ⟨l, rfl⟩ := Exact.exists_real_of_isFinite h.left_finite
  obtain ⟨r, rfl⟩ := Exact.exists_real_of_isFinite h.right_finite
  cases kind with
  | uniform => exact .uniform h.left_lt_right hd
  | logUniform =>
    have hpos := h.left_pos rfl
    rw [Exact.zero_eq] at hpos
    exact .logUniform hpos h.left_lt_right hd

theorem IsProper.isFinite_of_supports (h : d.IsProper) (hx : d.Supports x) :
    isFinite x = true := by
  obtain ⟨_, _, hsupport⟩ := h.exists_support
  obtain ⟨t, rfl⟩ := exists_real_of_supports hsupport hx
  rfl

theorem draw_of_make? (hd : kind.make? left right = some d) :
    d.draw u =
      kind.unscale (kind.scale left + u * (kind.scale right - kind.scale left)) := by
  cases kind with
  | uniform =>
    obtain ⟨-, -, -, rfl⟩ := uniform?_eq_some hd
    rfl
  | logUniform =>
    obtain ⟨-, rfl⟩ := logUniform?_eq_some hd
    rfl

/-- Where a density is finite, so is that on the scale. -/
theorem isFinite_logDensityOf (hd : kind.make? left right = some d)
    (h : isFinite (d.logAt x) = true) :
    isFinite (logDensityOf (kind.scale right - kind.scale left)) = true := by
  cases kind with
  | uniform =>
    obtain ⟨-, -, -, rfl⟩ := uniform?_eq_some hd
    rw [logAt] at h
    split at h
    · exact h
    · cases h
  | logUniform =>
    obtain ⟨-, rfl⟩ := logUniform?_eq_some hd
    rw [logAt] at h
    split at h
    · exact (Exact.isFinite_sub h).1
    · cases h

/-- A range that is accepted but not proper is a point, or infinite on its scale. -/
theorem of_not_proper (hadmits : kind.Admits left right) (h : ¬ kind.Proper left right) :
    (kind = .uniform ∧ left = right ∧ isFinite left = true) ∨
      kind.scale left < kind.scale right ∧
        ¬ (isFinite (kind.scale left) = true ∧ isFinite (kind.scale right) = true) := by
  cases kind with
  | uniform =>
    have hnot (hleft : isFinite left = true) (hright : isFinite right = true) :
        ¬ left < right := fun hlt => h ⟨hleft, hright, hlt, nofun⟩
    rcases hadmits with hlt | ⟨hleft, hright, hle⟩
    · exact .inr ⟨hlt, fun ⟨hleft, hright⟩ => hnot hleft hright hlt⟩
    · have hlt := hnot hleft hright
      obtain ⟨l, rfl⟩ := Exact.exists_real_of_isFinite hleft
      obtain ⟨r, rfl⟩ := Exact.exists_real_of_isFinite hright
      exact .inl ⟨rfl, congrArg Exact.real ((Exact.real_le_real.mp hle).eq_of_not_lt hlt), rfl⟩
  | logUniform =>
    obtain ⟨hzero, hlt⟩ := hadmits
    have hfinite := LawfulInfinity.isFinite_of_between LawfulOrder.isFinite_zero hzero hlt
    have hends : left ≤ 0.0 ∨ isFinite right = false := by
      by_contra hnot
      obtain ⟨hpos, hright⟩ := not_or.mp hnot
      exact h ⟨hfinite, Bool.not_eq_false _ ▸ hright, hlt,
        fun _ => LawfulOrder.lt_of_not_le hfinite LawfulOrder.isFinite_zero hpos⟩
    refine .inr ⟨LawfulLogEnds.ln_lt_ln hzero hlt hends, fun ⟨hleft, hright⟩ => ?_⟩
    obtain ⟨-, hpos⟩ := Exact.pos_of_isFinite_ln hleft
    obtain ⟨hright, -⟩ := Exact.pos_of_isFinite_ln hright
    exact h ⟨hfinite, hright, hlt, fun _ => hpos⟩

/-- On a range that is not proper a density is finite nowhere. -/
theorem isFinite_logAt_of_not_proper (hadmits : kind.Admits left right)
    (h : ¬ kind.Proper left right) (hd : kind.make? left right = some d) :
    isFinite (d.logAt x) = false := by
  refine Bool.eq_false_iff.mpr fun hx => ?_
  have hdensity := isFinite_logDensityOf hd hx
  rcases of_not_proper hadmits h with ⟨rfl, rfl, hleft⟩ | ⟨hlt, hinfinite⟩
  · obtain ⟨l, rfl⟩ := Exact.exists_real_of_isFinite hleft
    have hlength : Kind.uniform.scale (Exact.real l) - Kind.uniform.scale (.real l) = .real 0 := by
      rw [Kind.scale, Exact.real_sub_real, sub_self]
    rw [hlength, logDensityOf, Exact.ln_zero] at hdensity
    cases hdensity
  · rw [Exact.sub_of_lt hlt hinfinite] at hdensity
    cases hdensity

/-- On a range that is not proper no draw is finite, unless it is a point. -/
theorem eq_of_isFinite_draw (hadmits : kind.Admits left right) (h : ¬ kind.Proper left right)
    (hd : kind.make? left right = some d) (hu : 0.0 ≤ u) (hdraw : isFinite (d.draw u) = true) :
    left = right := by
  rcases of_not_proper hadmits h with ⟨-, heq, -⟩ | ⟨hlt, hinfinite⟩
  · exact heq
  · rw [draw_of_make? hd, Exact.sub_of_lt hlt hinfinite] at hdraw
    have hplace := Exact.add_mul_posInf hlt hu
    generalize kind.scale left + u * .posInf = place at hdraw hplace
    rcases hplace with rfl | rfl <;> cases kind <;> cases hdraw

end

/-- Which ranges have a distribution, in any arithmetic, and what is read from a text, is said by
`Kind.Admits`.  Without rounding the density of a distribution on a proper range is finite
throughout, as are all draws, which are in the range.  On the other ranges that are accepted the
density is finite nowhere, and a draw only if the range is a point. -/
theorem accepted_ranges {α : Type} [Scalar α] [LawfulOrder α] [LawfulInfinity α] [LawfulLog α]
    [LawfulLogEnds α] :
    (∀ (kind : Kind) (left right : α),
      ((∃ d, kind.make? left right = some d) ↔ kind.Admits left right) ∧
        (kind.Proper left right → kind.Admits left right)) ∧
    (∀ (text : String) (d : Marginal α), read text = .ok d ↔ ∃ (kind : Kind) (left right : α),
      kind.Written left right text ∧ kind.make? left right = some d) ∧
    (∀ (kind : Kind) (left right : α) (text : String), kind.Written left right text →
      ¬ kind.Admits left right → (read text : Except _ (Marginal α)) = .error .improper) ∧
    ∀ (kind : Kind) (left right : Exact) (d : Marginal Exact), kind.make? left right = some d →
      (kind.Proper left right → (∀ x, d.Supports x → isFinite (d.logAt x) = true) ∧
        ∀ u, 0.0 ≤ u → u < 1.0 → d.Supports (d.draw u) ∧ isFinite (d.draw u) = true) ∧
      (¬ kind.Proper left right → (∀ x, isFinite (d.logAt x) = false) ∧
        ∀ u, 0.0 ≤ u → isFinite (d.draw u) = true → left = right) := by
  refine ⟨fun kind left right => ⟨Kind.exists_make?_iff, Kind.Proper.admits⟩,
    fun text d => read_eq_ok_iff, fun kind left right text hwritten hnot => ?_,
    fun kind left right d hd => ⟨fun h => ?_, fun h => ?_⟩⟩
  · rw [read_of_written hwritten, Kind.judge]
    cases hd : kind.make? left right with
    | none => rfl
    | some d => exact absurd (Kind.exists_make?_iff.mp ⟨d, hd⟩) hnot
  · have hproper := isProper_of_make? h hd
    refine ⟨fun x hx => ?_, fun u hu hu' => ?_⟩
    · obtain ⟨-, t, ht⟩ | ⟨hnot, -⟩ := hproper.logAt_cases x
      · rw [ht]
        rfl
      · exact absurd hx hnot
    · have hdraw := hproper.supports_draw hu hu'
      exact ⟨hdraw, hproper.isFinite_of_supports hdraw⟩
  · have hadmits := Kind.exists_make?_iff.mp ⟨d, hd⟩
    exact ⟨fun x => isFinite_logAt_of_not_proper hadmits h hd,
      fun u hu hdraw => eq_of_isFinite_draw hadmits h hd hu hdraw⟩

/-! ## A single point and an infinite range -/

/-- The text of the range from one to one. -/
def pointText : String := "\x7b\"Uniform\":\x7b\"range\":[1,1]\x7d\x7d"

theorem written_pointText : Kind.Written .uniform (Exact.real 1) (.real 1) pointText := by
  let one : Json.Value := .ofNat 1
  have hscalar : Json.scalar? one = some (Exact.real 1) :=
    (Numeral.scaled?_ofNat (by decide)).trans (by rw [Nat.cast_one])
  have hrange : range? (.array [one, one]) = some (Exact.real 1, .real 1) := by
    show (do some (← Json.scalar? one, ← Json.scalar? one) : Option (Exact × Exact)) = _
    rw [hscalar]
    rfl
  refine ⟨"\x7b\"range\":[1,1]\x7d\x7d".toList, .object [(some "range", .array [one, one])],
    ['\x7d'], by decide +kernel, by cbv, by decide, ?_⟩
  exact hrange

/-- A text with a single point is read, as no density; a range of positive numbers has one. -/
theorem accepted_ranges_point :
    (∃ d : Marginal Exact, read pointText = .ok d ∧ ∀ x, isFinite (d.logAt x) = false) ∧
    ∃ d, Kind.logUniform.make? (Exact.real 1) (.real 2) = some d ∧
      ∀ x, d.Supports x → isFinite (d.logAt x) = true := by
  obtain ⟨haccepted, hread, -, hdensity⟩ := accepted_ranges (α := Exact)
  have hpoint : Kind.uniform.Admits (Exact.real 1) (.real 1) := .inr ⟨rfl, rfl, le_refl (1 : ℝ)⟩
  have hnot : ¬ Kind.uniform.Proper (Exact.real 1) (.real 1) :=
    fun h => lt_irrefl (1 : ℝ) h.left_lt_right
  have hproper : Kind.logUniform.Proper (Exact.real 1) (.real 2) := by
    have hlt : Exact.real 1 < .real 2 := one_lt_two (α := ℝ)
    refine ⟨rfl, rfl, hlt, fun _ => ?_⟩
    rw [Exact.zero_eq]
    exact zero_lt_one (α := ℝ)
  obtain ⟨d, hd⟩ := (haccepted .uniform (.real 1) (.real 1)).1.mpr hpoint
  obtain ⟨d', hd'⟩ := (haccepted .logUniform (.real 1) (.real 2)).1.mpr hproper.admits
  exact ⟨⟨d, (hread pointText d).mpr ⟨.uniform, _, _, written_pointText, hd⟩,
    ((hdensity _ _ _ d hd).2 hnot).1⟩, ⟨d', hd', ((hdensity _ _ _ d' hd').1 hproper).1⟩⟩

/-- The uniform distribution from zero to infinity is accepted, but at one, which is in its range,
it has no finite density, and the draw in the middle is not finite. -/
theorem uniform?_unbounded :
    ¬ Kind.uniform.Proper (Exact.real 0) .posInf ∧
      ∃ d, uniform? (Exact.real 0) .posInf = some d ∧ d.Supports (.real 1) ∧
        isFinite (d.logAt (.real 1)) = false ∧ isFinite (d.draw (.real (1 / 2))) = false := by
  have hadmits : Kind.uniform.Admits (Exact.real 0) .posInf := .inl trivial
  have hnot : ¬ Kind.uniform.Proper (Exact.real 0) .posInf :=
    fun h => Bool.false_ne_true h.right_finite
  obtain ⟨d, hd⟩ := Kind.exists_make?_iff.mpr hadmits
  have huniform : uniform? (Exact.real 0) .posInf = some d := hd
  refine ⟨hnot, d, huniform, ?_, isFinite_logAt_of_not_proper hadmits hnot hd, ?_⟩
  · obtain ⟨-, -, -, rfl⟩ := uniform?_eq_some huniform
    exact ⟨zero_le_one (α := ℝ), trivial⟩
  · have hhalf : (0.0 : Exact) ≤ .real (1 / 2) := by
      rw [Exact.zero_eq, Exact.real_le_real]
      norm_num
    refine Bool.eq_false_iff.mpr fun hdraw => ?_
    cases eq_of_isFinite_draw hadmits hnot hd hhalf hdraw

end Marginal

end PulseFit
