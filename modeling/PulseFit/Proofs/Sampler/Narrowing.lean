import PulseFit.Proofs.Prior.Attempts
import PulseFit.Proofs.Prior.Ranges
import PulseFit.Proofs.Scalar.Nearest
import PulseFit.Sampler

/-!
# Proofs.Sampler.Narrowing — starting positions in single precision

Over a proper distribution narrowing gives the nearest of the numbers in its interval
(`narrow_nearest`): where the nearest of all is outside, the value is in the half of the interval
next to it, and the neighbour towards the middle is inside.  So narrowing never reverses an order,
and what a prior admits, it admits in single precision (`Admits.narrowAll`).  Narrowing asks for a
finite density, not for the interval; over the other distributions, which have none, it always goes
four steps from the nearest number (`narrow_of_not_proper`) and may end outside (`narrow_least`).
-/

namespace PulseFit

open Exact (ofPlace real)
open Scalar (isFinite negInfinity ofSingle)

/-! ## One step towards the middle -/

namespace Exact

variable {x l h : ℝ} {p f : ℤ}

/-- Where the nearest number lies below an interval that contains others, the value is in the lower
half and the next number is inside. -/
theorem below_interval (hnearest : ∀ q, |x - ofPlace p| ≤ |x - ofPlace q|) (hp : ofPlace p < l)
    (hx : l ≤ x) (hf : l ≤ ofPlace f) (hf' : ofPlace f ≤ h) :
    x < 1 / 2 * (l + h) ∧ x < ofPlace (p + 1) ∧ p + 1 ≤ f := by
  have hpf : p < f := strictMono_ofPlace.lt_iff_lt.mp (hp.trans_le hf)
  -- a number above the nearest is on the other side of the value
  have habove {q : ℤ} (hq : p < q) : x - ofPlace p ≤ ofPlace q - x ∧ x < ofPlace q := by
    have hlt := strictMono_ofPlace hq
    have hle := hnearest q
    rw [abs_of_pos (by linarith)] at hle
    rcases le_total (ofPlace q) x with hqx | hqx
    · rw [abs_of_nonneg (by linarith)] at hle
      linarith
    · rw [abs_of_nonpos (by linarith)] at hle
      constructor <;> linarith
  obtain ⟨hfar, -⟩ := habove hpf
  refine ⟨?_, (habove p.lt_succ_self).2, by omega⟩
  linarith

/-- The same above an interval. -/
theorem above_interval (hnearest : ∀ q, |x - ofPlace p| ≤ |x - ofPlace q|) (hp : h < ofPlace p)
    (hx : x ≤ h) (hf : l ≤ ofPlace f) (hf' : ofPlace f ≤ h) :
    1 / 2 * (l + h) < x ∧ ofPlace (p - 1) < x ∧ f ≤ p - 1 := by
  have hmirror (q : ℤ) : |-x - ofPlace (-p)| ≤ |-x - ofPlace q| := by
    have hq := hnearest (-q)
    rw [ofPlace_neg] at hq ⊢
    rw [← abs_neg, ← abs_neg (-x - _)]
    convert hq using 2 <;> ring
  obtain ⟨hhalf, hnext, hplace⟩ := below_interval (l := -h) (h := -l) (f := -f) hmirror
    (by rw [ofPlace_neg]; linarith) (by linarith) (by rw [ofPlace_neg]; linarith)
    (by rw [ofPlace_neg]; linarith)
  have hneg : -p + 1 = -(p - 1) := by ring
  rw [hneg, ofPlace_neg] at hnext
  exact ⟨by linarith, by linarith, by omega⟩

end Exact

namespace Marginal

variable {d : Marginal Exact}

/-- The interval lies between finite numbers in single precision and contains one. -/
structure InSingles (d : Marginal Exact) : Prop where
  left : ∃ s : Single, s.isFinite = true ∧ ofSingle s ≤ d.support.1
  right : ∃ s : Single, s.isFinite = true ∧ d.support.2 ≤ ofSingle s
  inside : ∃ s : Single, d.Supports (ofSingle s)

end Marginal

namespace Sampler

/-! ## One distribution -/

section

variable {d : Marginal Exact}

theorem stepInside_of_isFinite {s : Single} (h : isFinite (d.logAt (ofSingle s)) = true)
    (up : Bool) (steps : ℕ) : stepInside d up steps s = s := by
  cases steps with
  | zero => rfl
  | succ steps => rw [stepInside, if_pos h]

theorem stepInside_succ {s : Single} (h : isFinite (d.logAt (ofSingle s)) = false)
    (up : Bool) (steps : ℕ) :
    stepInside d up (steps + 1) s = stepInside d up steps (s.next up) := by
  rw [stepInside, h]
  rfl

/-- Without a finite density all steps are taken. -/
theorem stepInside_of_forall (h : ∀ x, isFinite (d.logAt x) = false) (up : Bool) (steps : ℕ)
    (s : Single) : stepInside d up steps s = (Single.next up)^[steps] s := by
  induction steps generalizing s with
  | zero => rfl
  | succ steps ih => rw [stepInside_succ (h _), ih, Function.iterate_succ_apply]

/-- The number that is nearest to a value among those of single precision in an interval. -/
structure IsNearest (d : Marginal Exact) (x : ℝ) (s : Single) : Prop where
  isFinite : s.isFinite = true
  supports : d.Supports (ofSingle s)
  nearest : ∀ t : Single, d.Supports (ofSingle t) →
    |x - ofPlace s.place| ≤ |x - ofPlace t.place|

/-- A number in an interval of real numbers is finite. -/
theorem place_of_supports {l h : ℝ} (hsupport : d.support = (real l, real h)) {s : Single}
    (hs : d.Supports (ofSingle s)) :
    s.isFinite = true ∧ l ≤ ofPlace s.place ∧ ofPlace s.place ≤ h := by
  obtain ⟨t, ht⟩ := Marginal.exists_real_of_supports hsupport hs
  have hfinite := Exact.isFinite_of_ofSingle ht
  rw [Exact.ofSingle_of_isFinite hfinite, Marginal.supports_real_iff hsupport] at hs
  exact ⟨hfinite, hs⟩

theorem supports_of_place {l h : ℝ} (hsupport : d.support = (real l, real h)) {s : Single}
    (hfinite : s.isFinite = true) (hlo : l ≤ ofPlace s.place) (hhi : ofPlace s.place ≤ h) :
    d.Supports (ofSingle s) := by
  rw [Exact.ofSingle_of_isFinite hfinite, Marginal.supports_real_iff hsupport]
  exact ⟨hlo, hhi⟩

/-- What is in the interval is rounded to a finite number, and none is nearer. -/
theorem toSingle_of_supports {l h : ℝ} (hsupport : d.support = (real l, real h))
    (hsingles : d.InSingles) {x : ℝ} (hx : d.Supports (real x)) :
    (Scalar.toSingle (real x)).isFinite = true ∧
      ∀ p, |x - ofPlace (Scalar.toSingle (real x)).place| ≤ |x - ofPlace p| := by
  obtain ⟨hlx, hxh⟩ := (Marginal.supports_real_iff hsupport).mp hx
  obtain ⟨s, hs, hsl⟩ := hsingles.left
  obtain ⟨t, ht, hht⟩ := hsingles.right
  rw [hsupport, Exact.ofSingle_of_isFinite hs, Exact.real_le_real] at hsl
  rw [hsupport, Exact.ofSingle_of_isFinite ht, Exact.real_le_real] at hht
  exact Exact.toSingle_spec (Exact.abs_le_of_between hs ht (hsl.trans hlx) (hxh.trans hht))

theorem narrow_eq {l h : ℝ} (hsupport : d.support = (real l, real h)) (x : ℝ) :
    narrow d (real x) = stepInside d (x < 1 / 2 * (l + h)) 4 (Scalar.toSingle (real x)) := by
  rw [narrow, hsupport]
  dsimp only
  rw [Exact.half_eq, Exact.real_add_real, Exact.real_mul_real]
  rfl

section

variable {l h x : ℝ} (hsupport : d.support = (real l, real h)) (hx : d.Supports (real x))
  {s f : Single} (hfinite : s.isFinite = true)
  (hnearest : ∀ p, |x - ofPlace s.place| ≤ |x - ofPlace p|) (hf : d.Supports (ofSingle f))

include hsupport hx hfinite hnearest hf

/-- If the nearest number is below the interval, the value is in the lower half and the next number
up is the nearest inside. -/
theorem isNearest_next_of_lt (hs : ofPlace s.place < l) :
    x < 1 / 2 * (l + h) ∧ IsNearest d x (s.next true) := by
  obtain ⟨hlx, -⟩ := (Marginal.supports_real_iff hsupport).mp hx
  obtain ⟨hf, hlf, hfh⟩ := place_of_supports hsupport hf
  obtain ⟨hhalf, hnext, hle⟩ := Exact.below_interval hnearest hs hlx hlf hfh
  have hplace : (s.next true).place = s.place + 1 := Single.place_next hfinite true
  have hnextFinite : (s.next true).isFinite = true := by
    rw [Single.isFinite_iff] at hfinite hf ⊢
    omega
  rw [← hplace] at hnext hle
  refine ⟨hhalf, hnextFinite, supports_of_place hsupport hnextFinite (hlx.trans hnext.le)
    ((Exact.strictMono_ofPlace.monotone hle).trans hfh), fun t ht => ?_⟩
  obtain ⟨-, hlt, -⟩ := place_of_supports hsupport ht
  have hst := Exact.strictMono_ofPlace.lt_iff_lt.mp (hs.trans_le hlt)
  have hnextLe : ofPlace (s.next true).place ≤ ofPlace t.place :=
    Exact.strictMono_ofPlace.monotone (by omega)
  rw [abs_of_neg (by linarith), abs_of_neg (by linarith)]
  linarith

/-- If it is above, the value is in the upper half and the next number down is the nearest inside.
-/
theorem isNearest_next_of_gt (hs : h < ofPlace s.place) :
    1 / 2 * (l + h) < x ∧ IsNearest d x (s.next false) := by
  obtain ⟨-, hxh⟩ := (Marginal.supports_real_iff hsupport).mp hx
  obtain ⟨hf, hlf, hfh⟩ := place_of_supports hsupport hf
  obtain ⟨hhalf, hnext, hle⟩ := Exact.above_interval hnearest hs hxh hlf hfh
  have hplace : (s.next false).place = s.place - 1 := Single.place_next hfinite false
  have hnextFinite : (s.next false).isFinite = true := by
    rw [Single.isFinite_iff] at hfinite hf ⊢
    omega
  rw [← hplace] at hnext hle
  refine ⟨hhalf, hnextFinite, supports_of_place hsupport hnextFinite
    (hlf.trans (Exact.strictMono_ofPlace.monotone hle)) (hnext.le.trans hxh), fun t ht => ?_⟩
  obtain ⟨-, -, hth⟩ := place_of_supports hsupport ht
  have hts := Exact.strictMono_ofPlace.lt_iff_lt.mp (hth.trans_lt hs)
  have hnextLe : ofPlace t.place ≤ ofPlace (s.next false).place :=
    Exact.strictMono_ofPlace.monotone (by omega)
  rw [abs_of_pos (by linarith), abs_of_pos (by linarith)]
  linarith

end

/-- Narrowing takes at most one step, to the nearest number in the interval. -/
theorem narrow_nearest (hd : d.IsProper) (hsingles : d.InSingles) {x : ℝ}
    (hx : d.Supports (real x)) : IsNearest d x (narrow d (real x)) := by
  obtain ⟨l, h, hsupport⟩ := hd.exists_support
  obtain ⟨f, hf⟩ := hsingles.inside
  obtain ⟨hfinite, hnearest⟩ := toSingle_of_supports hsupport hsingles hx
  rw [narrow_eq hsupport]
  generalize Scalar.toSingle (real x) = s at hfinite hnearest
  by_cases hs : d.Supports (ofSingle s)
  · rw [stepInside_of_isFinite (hd.isFinite_logAt_iff.mpr hs)]
    exact ⟨hfinite, hs, fun t _ => hnearest t.place⟩
  rw [stepInside_succ (Bool.eq_false_iff.mpr (mt hd.isFinite_logAt_iff.mp hs))]
  rcases lt_or_ge (ofPlace s.place) l with hbelow | hlo
  · obtain ⟨hhalf, hnext⟩ := isNearest_next_of_lt hsupport hx hfinite hnearest hf hbelow
    rwa [decide_eq_true hhalf, stepInside_of_isFinite (hd.isFinite_logAt_iff.mpr hnext.supports)]
  · have habove : h < ofPlace s.place :=
      lt_of_not_ge fun hhi => hs (supports_of_place hsupport hfinite hlo hhi)
    obtain ⟨hhalf, hnext⟩ := isNearest_next_of_gt hsupport hx hfinite hnearest hf habove
    rwa [decide_eq_false (not_lt.mpr hhalf.le),
      stepInside_of_isFinite (hd.isFinite_logAt_iff.mpr hnext.supports)]

/-- Narrowing does not reverse an order. -/
theorem narrow_mono (hd : d.IsProper) (hsingles : d.InSingles) {x y : Exact}
    (hx : d.Supports x) (hy : d.Supports y) (hxy : x ≤ y) :
    (ofSingle (narrow d x) : Exact) ≤ ofSingle (narrow d y) := by
  obtain ⟨l, h, hsupport⟩ := hd.exists_support
  obtain ⟨s, rfl⟩ := Marginal.exists_real_of_supports hsupport hx
  obtain ⟨t, rfl⟩ := Marginal.exists_real_of_supports hsupport hy
  have hs := narrow_nearest hd hsingles hx
  have ht := narrow_nearest hd hsingles hy
  rw [Exact.ofSingle_of_isFinite hs.isFinite, Exact.ofSingle_of_isFinite ht.isFinite,
    Exact.real_le_real]
  rcases (Exact.real_le_real.mp hxy).lt_or_eq with hlt | rfl
  · exact Exact.le_of_nearest hlt (hs.nearest _ ht.supports) (ht.nearest _ hs.supports)
  · exact le_rfl

theorem supports_narrow (hd : d.IsProper) (hsingles : d.InSingles) {x : Exact}
    (hx : d.Supports x) : d.Supports (ofSingle (narrow d x)) := by
  obtain ⟨l, h, hsupport⟩ := hd.exists_support
  obtain ⟨s, rfl⟩ := Marginal.exists_real_of_supports hsupport hx
  exact (narrow_nearest hd hsingles hx).supports

/-- On a range that is accepted but not proper, narrowing goes four steps. -/
theorem narrow_of_not_proper {kind : Marginal.Kind} {left right : Exact}
    (hd : kind.make? left right = some d) (hnot : ¬ kind.Proper left right) (x : Exact) :
    narrow d x =
      (Single.next (x < 0.5 * (d.support.1 + d.support.2)))^[4] (Scalar.toSingle x) :=
  stepInside_of_forall (fun _ => Marginal.isFinite_logAt_of_not_proper
    (Marginal.Kind.exists_make?_iff.mp ⟨d, hd⟩) hnot hd) _ 4 _

end

end Sampler

/-! ## Positions -/

namespace Prior

open Posterior (widen)
open Sampler (narrowAll)

variable {m : Model} {channels : List Channel} {b : Bounds Exact} {r : Prior Exact}
  {values : List Exact}

theorem valueAt_narrowAll {i : ℕ} {e : Entry Exact} (he : r.entries[i]? = some e)
    (hlength : values.length = r.size) :
    (Chain.valueAt (widen (narrowAll r values)) i : Exact) =
      ofSingle (Sampler.narrow e.marginal (Chain.valueAt values i)) := by
  have hi : i < values.length := by
    rw [hlength]
    exact (List.getElem?_eq_some_iff.mp he).1
  have hx : values[i]? = some values[i] := List.getElem?_eq_getElem hi
  generalize values[i] = x at hx
  have hnarrow : (narrowAll r values)[i]? = some (Sampler.narrow e.marginal x) := by
    rw [narrowAll, List.getElem?_zipWith, hx, he]
  have hwiden : (widen (narrowAll r values) : List Exact)[i]? =
      some (ofSingle (Sampler.narrow e.marginal x)) := by
    rw [widen, List.getElem?_map, hnarrow, Option.map_some]
  rw [Chain.valueAt, Chain.valueAt, List.getD_eq_getElem?_getD, List.getD_eq_getElem?_getD, hwiden,
    hx, Option.getD_some, Option.getD_some]

/-- Values that keep their order in the intervals of their distributions still do so when they are
narrowed. -/
theorem Admits.narrowAll (h : r.Admits values) (hr : build? m channels b = some (.ok r))
    (hb : b.validate = .ok ()) (hsingles : ∀ e ∈ r.entries, e.marginal.InSingles) :
    r.Admits (widen (Sampler.narrowAll r values)) := by
  have hproper := isProper_of_build? hb hr
  have hsupports {i : ℕ} {e : Entry Exact} (he : r.entries[i]? = some e) :
      e.marginal.Supports (Chain.valueAt (widen (Sampler.narrowAll r values)) i) := by
    have hmem := List.mem_of_getElem? he
    rw [valueAt_narrowAll he h.length]
    exact Sampler.supports_narrow (hproper e hmem) (hsingles e hmem) (h.supports i e he)
  refine ⟨?_, ?_, fun i e he => hsupports he⟩
  · rw [widen, List.length_map, Sampler.narrowAll, List.length_zipWith, h.length, size,
      Nat.min_self]
  obtain ⟨lo, hi, -, hwindow⟩ := exists_window hb
  have htimes {xs : List Exact} (hxs : ∀ (i : ℕ) (e : Entry Exact), r.entries[i]? = some e →
      e.marginal.Supports (Chain.valueAt xs i)) (i : ℕ) (htime : r.IsTime i) :
      InWindow lo hi (Chain.valueAt xs i) := by
    obtain ⟨e, he, hmarginal⟩ := uniform_of_isTime hr htime
    rw [hwindow] at hmarginal
    obtain ⟨hlo, hhi⟩ := hxs i e he
    rw [Marginal.support_of_uniform? hmarginal] at hlo hhi
    obtain ⟨t, ht, hlo, hhi⟩ := Exact.exists_real_of_le hlo hhi
    exact ⟨t, hlo, hhi, ht⟩
  rw [ordered_iff_of_inWindow hr hwindow (htimes fun _ _ => hsupports)]
  intro c hc i j hpair
  have hle := (ordered_iff_of_inWindow hr hwindow (htimes h.supports)).mp h.ordered c hc i j hpair
  obtain ⟨k, hfirst, hsecond⟩ := Chain.mem_pairs.mp hpair
  obtain ⟨e, he, hmarginal⟩ :=
    uniform_of_isTime hr (isTime_of_mem_members hr hc (List.mem_of_getElem? hfirst))
  obtain ⟨e', he', hmarginal'⟩ :=
    uniform_of_isTime hr (isTime_of_mem_members hr hc (List.mem_of_getElem? hsecond))
  -- both times have the distribution of the window
  have hsame : e'.marginal = e.marginal := Option.some.inj (hmarginal'.symm.trans hmarginal)
  have hmem := List.mem_of_getElem? he
  have hsecond' := h.supports j e' he'
  rw [valueAt_narrowAll he h.length, valueAt_narrowAll he' h.length, hsame]
  rw [hsame] at hsecond'
  exact Sampler.narrow_mono (hproper e hmem) (hsingles e hmem) (h.supports i e he) hsecond' hle

end Prior

namespace Sampler

open Posterior (widen)

/-- Over a proper distribution whose interval lies within single precision narrowing stays in the
interval and does not reverse an order; over the others that are accepted it goes four steps from
the nearest number.  A draw from a prior that was built keeps, when it is narrowed, the order of all
chains, and has a density that is not zero. -/
theorem narrow_within (kind : Marginal.Kind) (left right : Exact) (m : Model)
    (channels : List Channel) (b : Bounds Exact) (attempts : ℕ) (draws : Draws Exact) :
    (∀ d, kind.make? left right = some d → d.InSingles →
      (kind.Proper left right → (∀ x, d.Supports x → d.Supports (ofSingle (narrow d x))) ∧
        ∀ x y, d.Supports x → d.Supports y → x ≤ y →
          (ofSingle (narrow d x) : Exact) ≤ ofSingle (narrow d y)) ∧
      (¬ kind.Proper left right → ∀ x, narrow d x =
        (Single.next (x < 0.5 * (d.support.1 + d.support.2)))^[4] (Scalar.toSingle x))) ∧
    ∀ r r' values rest, Prior.build? m channels b = some (.ok r) →
      r.withAttempts? attempts = some r' → (∀ e ∈ r'.entries, e.marginal.InSingles) →
      (∀ i, 0.0 ≤ draws.value i ∧ draws.value i < 1.0) →
      r'.drawValues draws = (.ok values, rest) →
      r'.ordered (widen (narrowAll r' values)) = true ∧
        ∃ x, r'.logOfValues? (widen (narrowAll r' values)) = some x ∧ negInfinity < x := by
  refine ⟨fun d hd hsingles => ⟨fun h => ?_, narrow_of_not_proper hd⟩,
    fun r r' values rest hr hr' hsingles hdraws hvalues => ?_⟩
  · have hproper := Marginal.isProper_of_make? h hd
    exact ⟨fun x => supports_narrow hproper hsingles, fun x y => narrow_mono hproper hsingles⟩
  · have hb := Prior.validate_of_build? hr
    obtain ⟨hpos, rfl⟩ := Prior.withAttempts?_eq_some_iff.mp hr'
    have hproper := Prior.isProper_of_build? hb hr
    obtain ⟨k, -, hfirst, rfl, -⟩ := Prior.drawValues_eq_ok_iff.mp hvalues
    have hsortable : Prior.Sortable r.size r.chains := Prior.sortable_of_build? hr
    have hdrawn := hfirst.admits hproper hsortable hdraws
    -- the number of attempts plays no part in what is admitted
    have hadmits : r.Admits _ := ⟨hdrawn.length, hdrawn.ordered, hdrawn.supports⟩
    have hnarrowed := hadmits.narrowAll hr hb hsingles
    exact ⟨hnarrowed.ordered, hnarrowed.exists_logOfValues? hproper⟩

/-- The usual intervals lie within single precision, if the window reaches from zero to ten. -/
theorem inSingles_of_tenBounds {q : Quantity} {d : Marginal Exact}
    (hd : tenBounds.marginal? q = some d) : d.InSingles := by
  have hsupport := Bounds.support_marginal validate_tenBounds hd
  obtain ⟨hlo, hhi⟩ := Bounds.interval_within q
  have hmillion : ofPlace (147 * 2 ^ 23 : ℕ) = 2 ^ 20 := by
    rw [Exact.ofPlace_natCast, Exact.ofMagnitude_mul (by norm_num)]
    norm_num
  have hright : (ofSingle ⟨0x49800000⟩ : Exact) = real (2 ^ 20) := by
    rw [Exact.ofSingle_of_isFinite (by decide), ← hmillion]
    rfl
  have hleft : (ofSingle ⟨0xC9800000⟩ : Exact) = real (-2 ^ 20) := by
    rw [Exact.ofSingle_of_isFinite (by decide), ← hmillion, ← Exact.ofPlace_neg]
    rfl
  have hone : (ofSingle ⟨0x3F800000⟩ : Exact) = real 1 := by
    have hplace : ofPlace (127 * 2 ^ 23 : ℕ) = 1 := by
      rw [Exact.ofPlace_natCast, Exact.ofMagnitude_mul (by norm_num)]
      norm_num
    rw [Exact.ofSingle_of_isFinite (by decide), ← hplace]
    rfl
  refine ⟨⟨⟨0xC9800000⟩, by decide, ?_⟩, ⟨⟨0x49800000⟩, by decide, ?_⟩, ⟨⟨0x3F800000⟩, ?_⟩⟩
  · rw [hleft, hsupport]
    exact Exact.le_trans (Exact.real_le_real.mpr (by norm_num)) hlo
  · rw [hright, hsupport]
    exact Exact.le_trans hhi (Exact.real_le_real.mpr (by norm_num))
  · rw [hone, Marginal.Supports, hsupport]
    exact Bounds.one_mem_interval q

/-- The starts of two pulses that are drawn in descending order. -/
theorem narrow_within_GG :
    ∃ r r' values rest, Prior.build? ⟨false, [⟨.gaussian, none⟩, ⟨.gaussian, none⟩], none⟩ [.a]
        tenBounds = some (.ok r) ∧ r.withAttempts? 50 = some r' ∧
      r'.drawValues Prior.lateNinth = (.ok values, rest) ∧
      r'.ordered (widen (narrowAll r' values)) = true ∧
      ∃ d, Marginal.Kind.uniform.make? (real 0) (real 10) = some d ∧
        d.Supports (ofSingle (narrow d (real 10))) := by
  let m : Model := ⟨false, [⟨.gaussian, none⟩, ⟨.gaussian, none⟩], none⟩
  obtain ⟨r, hr⟩ := Prior.exists_build? validate_tenBounds m [.a]
  have hattempts : 0 < 50 := by decide
  let r' : Prior Exact := { r with attempts := 50, attempts_pos := hattempts }
  have hr' : r.withAttempts? 50 = some r' := dif_pos hattempts
  have hsingles : ∀ e ∈ r'.entries, e.marginal.InSingles := fun e he =>
    inSingles_of_tenBounds (Prior.marginal_of_build? hr he)
  have hdraw := Prior.drawValues_eq hr validate_tenBounds Prior.lateNinth_value hattempts
  obtain ⟨hone, hall⟩ := narrow_within .uniform (real 0) (real 10) m [.a] tenBounds 50
    Prior.lateNinth
  obtain ⟨hordered, -⟩ := hall r r' _ _ hr hr' hsingles Prior.lateNinth_value hdraw
  have hproper : Marginal.Kind.uniform.Proper (real 0) (real 10) :=
    ⟨rfl, rfl, Exact.real_lt_real.mpr (by norm_num), nofun⟩
  obtain ⟨d, hd⟩ := Bounds.exists_marginal validate_tenBounds (.shape .start)
  have hmarginal : Marginal.Kind.uniform.make? (real 0) (real 10) = some d := hd
  have hin := inSingles_of_tenBounds hd
  have hten : d.Supports (real 10) := by
    rw [Marginal.Supports, Bounds.support_marginal validate_tenBounds hd]
    exact ⟨Exact.real_le_real.mpr (by norm_num), le_refl (10 : ℝ)⟩
  exact ⟨r, r', _, _, hr, hr', hdraw, hordered, d, hmarginal,
    ((hone d hmarginal hin).1 hproper).1 _ hten⟩

/-- The least finite number in single precision. -/
def least : Single := ⟨0xFF7FFFFF⟩

/-- The range from the least finite number to itself is accepted and holds that number, but
narrowing steps from it to the infinity and on to no number. -/
theorem narrow_least :
    ∃ d, Marginal.uniform? (ofSingle least : Exact) (ofSingle least) = some d ∧ d.InSingles ∧
      d.Supports (ofSingle least) ∧ (narrow d (ofSingle least : Exact)).isNaN = true ∧
      ¬ d.Supports (ofSingle (narrow d (ofSingle least : Exact))) := by
  have hfinite : least.isFinite = true := by decide
  have hreal := Exact.ofSingle_of_isFinite hfinite
  have hadmits : Marginal.Kind.uniform.Admits (ofSingle least : Exact) (ofSingle least) := by
    rw [hreal]
    exact .inr ⟨rfl, rfl, le_refl (ofPlace least.place)⟩
  have hnot : ¬ Marginal.Kind.uniform.Proper (ofSingle least : Exact) (ofSingle least) := by
    rw [hreal]
    exact fun h => lt_irrefl (ofPlace least.place) h.left_lt_right
  obtain ⟨d, hd⟩ := Marginal.Kind.exists_make?_iff.mpr hadmits
  have hsupport : d.support = (ofSingle least, ofSingle least) := by
    rw [hreal] at hd ⊢
    exact Marginal.support_of_uniform? hd
  have hle : (ofSingle least : Exact) ≤ ofSingle least := by
    rw [hreal]
    exact le_refl (ofPlace least.place)
  have hsupports : d.Supports (ofSingle least) := by
    rw [Marginal.Supports, hsupport]
    exact ⟨hle, hle⟩
  have hsingles : d.InSingles :=
    ⟨⟨least, hfinite, by rwa [hsupport]⟩, ⟨least, hfinite, by rwa [hsupport]⟩, least, hsupports⟩
  have hdown : ¬ (ofSingle least : Exact) < 0.5 * (d.support.1 + d.support.2) := by
    rw [hsupport, hreal, Exact.half_eq, Exact.real_add_real, Exact.real_mul_real,
      Exact.real_lt_real]
    linarith
  have hnarrow : narrow d (ofSingle least : Exact) = (Single.next false)^[4] least := by
    rw [narrow_of_not_proper hd hnot, decide_eq_false hdown,
      Exact.toSingle_ofSingle hfinite (by decide)]
  have hnan : (narrow d (ofSingle least : Exact)).isNaN = true := by
    rw [hnarrow]
    rfl
  refine ⟨d, hd, hsingles, hsupports, hnan, fun h => ?_⟩
  rw [hreal] at hsupport
  have hfinite' := (place_of_supports hsupport h).1
  rw [Single.isNaN_of_isFinite hfinite'] at hnan
  cases hnan

end Sampler

end PulseFit
