import PulseFit.Proofs.Prior.Drawing
import PulseFit.Proofs.Scalar.Infinities

/-!
# Proofs.Posterior — positions and assignments

A sampler moves positions; a likelihood reads assignments, and a prior takes both.  Over different
channels no parameter has two places, so a position can be read back from its assignment and the
prior has one value at both.  The posterior is the least value where the prior is not finite or the
likelihood has no value, and elsewhere the sum of the two (`posterior_by_name`).
-/

namespace PulseFit

open Scalar (isFinite negInfinity)

variable {α : Type}

namespace Prior

theorem names_eq (r : Prior α) : r.names = (r.entries.map (·.key)).map Key.text := by
  rw [List.map_map]
  rfl

theorem Kept.names {r r' : Prior α} (h : Kept r r') : r'.names = r.names := by
  rw [names_eq, names_eq, h.keys]

/-- The values of a prior are those that the assignment gives to its names. -/
theorem map_getElem?_of_values {r : Prior α} {p : Assignment α} {values : List α}
    (h : r.values p = .ok values) : r.names.map (p[·]?) = values.map some := by
  have hsteps := congrArg (List.map Except.toOption) (map_eq_of_mapM_eq_ok h)
  rw [List.map_map, List.map_map] at hsteps
  rw [names, List.map_map]
  refine Eq.trans (List.map_congr_left fun e _ => ?_) hsteps
  dsimp only [Function.comp_apply]
  split <;> assumption

/-- Over different parameters an assignment of values has one entry for each of them. -/
theorem size_assign {r : Prior α} {values : List α} (hnames : r.names.Nodup)
    (hlength : values.length = r.size) : (r.assign values).size = r.names.length := by
  have hzip : (r.names.zip values).map (·.1) = r.names := by
    refine List.map_fst_zip (Nat.le_of_eq ?_)
    rw [hlength, names, List.length_map, size]
  rw [assign, Assignment.size_ofPairs (by rwa [hzip]), ← List.length_map (·.1), hzip]

end Prior

namespace Posterior

variable [Scalar α] {t : Posterior α} {position : List α} {p : Assignment α} {x : α}

theorem logAt?_of_not_finite (hx : t.logPrior? position = some x) (h : isFinite x = false) :
    t.logAt? position = some negInfinity := by
  rw [logAt?, hx]
  show (if isFinite x then _ else _) = _
  rw [h]
  rfl

/-- Where the prior is finite, the likelihood is asked. -/
theorem logAt?_of_finite (hx : t.logPrior? position = some x) (h : isFinite x = true)
    (hp : t.parameters? position = some p) :
    t.logAt? position = some (x + match t.likelihood.logAt p with
      | .ok y => y
      | .error _ => negInfinity) := by
  rw [logAt?, hx]
  show (if isFinite x then _ else _) = _
  rw [if_pos h, logLikelihood?, hp]
  rfl

/-- A posterior over a prior that was built for different channels, whatever distributions were
overwritten before, and over any likelihood, at any position.  The assignment of the position has
one entry for each name, and reading the names in their order gives the position back.  The
logarithm of the prior is the same at the position and at the assignment.  That of the posterior is
the least value if the prior is not finite or the likelihood has no value at the assignment, and
else their sum. -/
theorem posterior_by_name [Scalar.LawfulInfinity α] {m : Model} {channels : List Channel}
    {b : Bounds α} {r r' r'' : Prior α} (hr : Prior.build? m channels b = some (.ok r))
    (hchannels : channels.Nodup) {ds : List (String × Marginal α)}
    (hds : r.overwriteEach ds = r') {attempts : Nat}
    (hattempts : r'.withAttempts? attempts = some r'') {likelihood : Likelihood α}
    (ht : ofParts likelihood r'' = .ok t) (hlength : position.length = r''.names.length) :
    ∃ p x, t.names = r''.names ∧ t.parameters? position = some p ∧
      p.size = r''.names.length ∧ (∀ name, name ∈ p ↔ name ∈ r''.names) ∧
      r''.names.map (p[·]?) = position.map some ∧
      t.logPrior? position = some x ∧ r''.logAt p = .ok x ∧
      (isFinite x = false → t.logAt? position = some negInfinity) ∧
      (∀ e, likelihood.logAt p = .error e → t.logAt? position = some negInfinity) ∧
      ∀ y, isFinite x = true → likelihood.logAt p = .ok y →
        t.logAt? position = some (x + y) := by
  obtain ⟨rfl, rfl⟩ := parts_of_ofParts ht
  have hkept : Prior.Kept r t.prior := by
    rw [← hds] at hattempts
    exact (Prior.overwriteEach_kept r ds).trans (Prior.withAttempts?_kept hattempts)
  have hkeys : (t.prior.entries.map (·.key)).Nodup := by
    rw [hkept.keys, Prior.keys_of_build? hr]
    exact Prior.nodup_modelKeys hchannels
  have hnames : t.prior.names.Nodup := by
    rw [Prior.names_eq]
    exact hkeys.map fun _ _ => Key.text_injective
  have hsize : position.length = t.prior.size := by
    rw [hlength, Prior.names, List.length_map, Prior.size]
  have hvalues := Prior.values_assign hkeys hsize
  have hprior : t.logPrior? position = some (t.prior.logOfValues position) := if_pos hsize
  have hp := parameters?_eq_some hsize
  refine ⟨t.prior.assign position, t.prior.logOfValues position, rfl, hp,
    Prior.size_assign hnames hsize, fun name => Prior.mem_assign hsize,
    Prior.map_getElem?_of_values hvalues, hprior, ?_, fun h => ?_, fun e he => ?_,
    fun y hfinite hy => ?_⟩
  · rw [Prior.logAt, hvalues]
    rfl
  · exact logAt?_of_not_finite hprior h
  · cases hfinite : isFinite (t.prior.logOfValues position) with
    | false => exact logAt?_of_not_finite hprior hfinite
    | true =>
      rw [logAt?_of_finite hprior hfinite hp, he]
      exact congrArg some (Scalar.LawfulInfinity.add_negInfinity hfinite)
  · rw [logAt?_of_finite hprior hfinite hp, hy]

/-- A lensed pulse in two channels, after one scale was overwritten and the attempts were limited,
at a position where all parameters are one. -/
theorem posterior_by_name_GL :
    ∃ r r' r'' t p x, Prior.build? ⟨true, [⟨.gaussian, none⟩], none⟩ [.a, .b]
        tenBounds = some (.ok r) ∧
      r.overwriteEach [("scale_1_b", .uniform (.real 0) (.real 1) (.real 0))] = r' ∧
      r'.withAttempts? 5 = some r'' ∧
      ofParts (JointLikelihood.toLikelihood
        ⟨[⟨⟨true, [⟨.gaussian, none⟩], none⟩, .b, #[.real 1], #[.real 3], rfl⟩,
          ⟨⟨true, [⟨.gaussian, none⟩], none⟩, .a, #[.real 1], #[.real 0], rfl⟩],
          List.cons_ne_nil _ _⟩) r'' = .ok t ∧
      t.parameters? (List.replicate 10 (.real 1)) = some p ∧ p.size = 10 ∧
      t.logPrior? (List.replicate 10 (.real 1)) = some x ∧ r''.logAt p = .ok x := by
  let m : Model := ⟨true, [⟨.gaussian, none⟩], none⟩
  let j : JointLikelihood Exact :=
    ⟨[⟨m, .b, #[.real 1], #[.real 3], rfl⟩, ⟨m, .a, #[.real 1], #[.real 0], rfl⟩],
      List.cons_ne_nil _ _⟩
  obtain ⟨r, hr⟩ := Prior.exists_build? validate_tenBounds m [.a, .b]
  obtain ⟨r', hr'⟩ : ∃ r',
    r.overwriteEach [("scale_1_b", .uniform (.real 0) (.real 1) (.real 0))] = r' := ⟨_, rfl⟩
  obtain ⟨r'', hr''⟩ : ∃ r'', r'.withAttempts? 5 = some r'' := ⟨_, dif_pos (by decide)⟩
  have hnames : r''.names = r.names :=
    ((hr' ▸ Prior.overwriteEach_kept r _ : Prior.Kept r r').trans
      (Prior.withAttempts?_kept hr'')).names
  obtain ⟨t, ht⟩ : ∃ t, ofParts j.toLikelihood r'' = .ok t := by
    rw [exists_ofParts_iff, hnames]
    exact (covers_iff hr (by simp [j])).mpr (by simp [j])
  have hlength : r''.names.length = 10 := by
    rw [hnames, Prior.names_of_build? hr]
    decide
  have hposition : (List.replicate 10 (Exact.real 1)).length = r''.names.length := by
    rw [hlength, List.length_replicate]
  obtain ⟨p, x, -, hp, hsize, -, -, hprior, hlog, -⟩ :=
    posterior_by_name hr (by decide) hr' hr'' ht hposition
  exact ⟨r, r', r'', t, p, x, hr, hr', hr'', ht, hp, hsize.trans hlength, hprior, hlog⟩

end Posterior

end PulseFit
