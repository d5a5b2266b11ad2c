import PulseFit.Sampler.Tally
import PulseFit.Proofs.Coverage
import PulseFit.Proofs.Ensemble
import PulseFit.Proofs.Prior.Attempts
import PulseFit.Proofs.Single

/-!
# Proofs.Sampler.Tally — what a run records

The best of walkers is the first with the greatest log-density (`IsBest`); one whose log-density is
no number is neither best nor in the way of others.  A tally that has taken some walkers holds the
values of the best of them and the positions of all (`note?_of`), so recording the walkers as they
come gives what a look at the whole history gives, and no position is ever of the wrong length.
-/

namespace PulseFit

/-! ## The best walker -/

/-- The first of some walkers with the greatest log-density, which is a number.  Log-densities that
are no numbers do not count. -/
structure IsBest (walkers : List Walker) (w : Walker) : Prop where
  isNumber : w.logDensity.isNaN = false
  first : ∃ before after, walkers = before ++ w :: after ∧
    (∀ v ∈ before, v.logDensity.isNaN = false → Single.lt v.logDensity w.logDensity = true) ∧
    ∀ v ∈ after, Single.lt w.logDensity v.logDensity = false

namespace IsBest

variable {walkers : List Walker} {w v : Walker}

theorem mem (h : IsBest walkers w) : w ∈ walkers := by
  obtain ⟨before, after, rfl, -⟩ := h.first
  exact List.mem_append_right before List.mem_cons_self

/-- No walker is better. -/
theorem not_lt (h : IsBest walkers w) (hv : v ∈ walkers) :
    Single.lt w.logDensity v.logDensity = false := by
  obtain ⟨before, after, rfl, hbefore, hafter⟩ := h.first
  rcases List.mem_append.mp hv with hv | hv
  · refine Bool.eq_false_iff.mpr fun hlt => ?_
    have hvw := Single.lt_iff.mp (hbefore v hv (Single.lt_iff.mp hlt).2.1)
    have hwv := Single.lt_iff.mp hlt
    omega
  · rcases List.mem_cons.mp hv with rfl | hv
    · exact Single.lt_irrefl _
    · exact hafter v hv

/-- One more walker that is not better leaves the best as it is. -/
theorem concat_of_not_lt (h : IsBest walkers w)
    (hv : Single.lt w.logDensity v.logDensity = false) : IsBest (walkers ++ [v]) w := by
  obtain ⟨before, after, rfl, hbefore, hafter⟩ := h.first
  refine ⟨h.isNumber, before, after ++ [v], ?_, hbefore, fun u hu => ?_⟩
  · rw [List.append_assoc, List.cons_append]
  · rcases List.mem_append.mp hu with hu | hu
    · exact hafter u hu
    · rw [List.mem_singleton.mp hu]
      exact hv

/-- One more walker that is better is the best. -/
theorem concat_of_lt (h : IsBest walkers w) (hv : Single.lt w.logDensity v.logDensity = true) :
    IsBest (walkers ++ [v]) v :=
  ⟨(Single.lt_iff.mp hv).2.1, walkers, [], rfl,
    fun _ hu hnumber => Single.lt_of_lt_of_not_lt hv (h.not_lt hu) hnumber, fun _ hu => nomatch hu⟩

end IsBest

namespace Sampler

variable {walkers : List Walker} {w : Walker}

theorem better_none (w : Walker) :
    better none w = if Single.lt Single.negInfinity w.logDensity then some w else none := rfl

theorem better_some (w v : Walker) :
    better (some w) v = if Single.lt w.logDensity v.logDensity then some v else some w := rfl

theorem bestOf_concat (walkers : List Walker) (w : Walker) :
    bestOf (walkers ++ [w]) = better (bestOf walkers) w := by
  rw [bestOf, List.foldl_concat, bestOf]

/-- Either no walker is above the least value, or there is a best one, which is. -/
theorem bestOf_cases (walkers : List Walker) :
    (bestOf walkers = none ∧
      ∀ v ∈ walkers, Single.lt Single.negInfinity v.logDensity = false) ∨
    ∃ w, bestOf walkers = some w ∧ IsBest walkers w ∧
      Single.lt Single.negInfinity w.logDensity = true := by
  induction walkers using List.reverseRecOn with
  | nil => exact .inl ⟨rfl, fun _ hv => nomatch hv⟩
  | append_singleton walkers v ih =>
    rw [bestOf_concat]
    rcases ih with ⟨hnone, hall⟩ | ⟨w, hsome, hbest, hw⟩
    · rw [hnone, better_none]
      by_cases hv : Single.lt Single.negInfinity v.logDensity = true
      · rw [if_pos hv]
        refine .inr ⟨v, rfl, ⟨(Single.lt_iff.mp hv).2.1, walkers, [], rfl, fun u hu hnumber => ?_,
          fun _ hu => nomatch hu⟩, hv⟩
        exact Single.lt_of_lt_of_not_lt hv (hall u hu) hnumber
      · rw [if_neg hv]
        refine .inl ⟨rfl, fun u hu => ?_⟩
        rcases List.mem_append.mp hu with hu | hu
        · exact hall u hu
        · rw [List.mem_singleton.mp hu]
          exact Bool.eq_false_iff.mpr hv
    · rw [hsome, better_some]
      right
      by_cases hv : Single.lt w.logDensity v.logDensity = true
      · rw [if_pos hv]
        exact ⟨v, rfl, hbest.concat_of_lt hv, Single.lt_trans hw hv⟩
      · rw [if_neg hv]
        exact ⟨w, rfl, hbest.concat_of_not_lt (Bool.eq_false_iff.mpr hv), hw⟩

/-- A walker stays the best so far while none is better. -/
theorem foldl_better_of_not_lt {after : List Walker}
    (h : ∀ v ∈ after, Single.lt w.logDensity v.logDensity = false) :
    after.foldl better (some w) = some w := by
  induction after with
  | nil => rfl
  | cons v after ih =>
    rw [List.foldl_cons, better_some, h v List.mem_cons_self]
    exact ih fun u hu => h u (List.mem_cons_of_mem v hu)

/-- The walkers one after the other leave the first with the greatest log-density. -/
theorem bestOf_eq_some_iff : bestOf walkers = some w ↔
    IsBest walkers w ∧ Single.lt Single.negInfinity w.logDensity = true := by
  constructor
  · intro h
    rcases bestOf_cases walkers with ⟨hnone, -⟩ | ⟨w', hsome, hbest⟩
    · rw [h] at hnone
      cases hnone
    · obtain rfl := Option.some.inj (h.symm.trans hsome)
      exact hbest
  · rintro ⟨hbest, hw⟩
    obtain ⟨before, after, rfl, hbefore, hafter⟩ := hbest.first
    have htaken : better (bestOf before) w = some w := by
      rcases bestOf_cases before with ⟨hnone, -⟩ | ⟨u, hsome, hu, -⟩
      · rw [hnone, better_none, if_pos hw]
      · rw [hsome, better_some, if_pos (hbefore u hu.mem hu.isNumber)]
    rw [bestOf, List.foldl_append, List.foldl_cons]
    exact (congrArg (after.foldl better) htaken).trans (foldl_better_of_not_lt hafter)

end Sampler

/-! ## Walkers as they come -/

open Posterior (widen)

variable {α : Type} [Scalar α] {t : Posterior α}

namespace Tally

/-- What is kept of walkers: the values of the best of them and the positions of all. -/
def of (t : Posterior α) (walkers : List Walker) : Tally α where
  best := ((Sampler.bestOf walkers).map fun w => widen w.position).getD []
  bestLog := ((Sampler.bestOf walkers).map (·.logDensity)).getD Single.negInfinity
  chain := (walkers.map fun w => t.prior.assign (widen w.position)).toArray

theorem parameters?_widen {w : Walker} (hw : w.position.length = t.prior.size) :
    t.parameters? (widen w.position) = some (t.prior.assign (widen w.position)) :=
  Posterior.parameters?_eq_some ((List.length_map _).trans hw)

/-- A walker with a value for each parameter is added to a tally. -/
theorem note?_of (walkers : List Walker) {w : Walker} (hw : w.position.length = t.prior.size) :
    note? t (of t walkers) w = some (of t (walkers ++ [w])) := by
  have hof : of t (walkers ++ [w]) =
      { of t (walkers ++ [w]) with
        chain := (of t walkers).chain.push (t.prior.assign (widen w.position)) } := by
    dsimp only [of]
    rw [List.map_append, List.push_toArray]
    rfl
  have hbest : Sampler.bestOf (walkers ++ [w]) =
      if Single.lt (of t walkers).bestLog w.logDensity then some w
      else Sampler.bestOf walkers := Sampler.bestOf_concat walkers w
  rw [note?, parameters?_widen hw, hof]
  by_cases hlt : Single.lt (of t walkers).bestLog w.logDensity = true
  · rw [if_pos hlt] at hbest ⊢
    dsimp only [of]
    rw [hbest]
    rfl
  · rw [if_neg hlt] at hbest ⊢
    dsimp only [of]
    rw [hbest]
    rfl

/-- The walkers of a step are added one after the other. -/
theorem noteAll?_of (walkers : List Walker) {step : List Walker}
    (hstep : ∀ w ∈ step, w.position.length = t.prior.size) :
    noteAll? t (of t walkers) step = some (of t (walkers ++ step)) := by
  induction step generalizing walkers with
  | nil => rw [List.append_nil]; rfl
  | cons w step ih =>
    have hrest := ih (walkers ++ [w]) fun v hv => hstep v (List.mem_cons_of_mem w hv)
    rw [noteAll?, List.foldlM_cons, note?_of walkers (hstep w List.mem_cons_self)]
    rw [List.append_assoc] at hrest
    exact hrest

/-- The tally of a history holds all its walkers. -/
theorem ofHistory?_eq {history : List (List Walker)}
    (h : ∀ w ∈ history.flatten, w.position.length = t.prior.size) :
    ofHistory? t history = some (of t history.flatten) := by
  suffices hfrom : ∀ (walkers : List Walker), history.foldlM (noteAll? t) (of t walkers) =
      some (of t (walkers ++ history.flatten)) from hfrom []
  induction history with
  | nil =>
    intro walkers
    rw [List.flatten_nil, List.append_nil]
    rfl
  | cons step history ih =>
    intro walkers
    rw [List.flatten_cons] at h ⊢
    rw [List.foldlM_cons, noteAll?_of walkers fun w hw => h w (List.mem_append_left _ hw),
      ← List.append_assoc]
    exact ih (fun w hw => h w (List.mem_append_right _ hw)) (walkers ++ step)

/-- What is kept of a history is closed to what its record gives. -/
theorem close?_of {history : List (List Walker)}
    (h : ∀ w ∈ history.flatten, w.position.length = t.prior.size) :
    close? t (of t history.flatten) = some (Sampler.record t history) := by
  unfold close? Sampler.record
  rcases Sampler.bestOf_cases history.flatten with ⟨hnone, -⟩ | ⟨w, hsome, hbest, -⟩
  · simp only [of, hnone]
    rfl
  · simp only [of, hsome, Option.map_some, Option.getD_some, parameters?_widen (h w hbest.mem)]
    split <;> rfl

end Tally

namespace Sampler

theorem record_eq_ok_iff {history : List (List Walker)} {result : Result α} :
    record t history = .ok result ↔
      ∃ w, IsBest history.flatten w ∧ w.logDensity.isFinite = true ∧
        result = ⟨t.prior.assign (widen w.position), Scalar.ofSingle w.logDensity,
          history.flatten.map fun w => t.prior.assign (widen w.position)⟩ := by
  unfold record
  constructor
  · intro h
    split at h
    · cases h
    · next w hbest =>
      split at h
      · next hfinite =>
        cases h
        exact ⟨w, (bestOf_eq_some_iff.mp hbest).1, hfinite, rfl⟩
      · cases h
  · rintro ⟨w, hbest, hfinite, rfl⟩
    rw [bestOf_eq_some_iff.mpr ⟨hbest, Single.negInfinity_lt_of_isFinite hfinite⟩]
    dsimp only
    rw [if_pos hfinite]

theorem record_eq_error_iff {history : List (List Walker)} {e : SamplerError α} :
    record t history = .error e ↔
      e = .noFiniteSample ∧ ∀ w, IsBest history.flatten w → w.logDensity.isFinite = false := by
  cases hrecord : record t history with
  | ok result =>
    obtain ⟨w, hbest, hfinite, -⟩ := record_eq_ok_iff.mp hrecord
    refine ⟨nofun, fun ⟨_, h⟩ => ?_⟩
    rw [h w hbest] at hfinite
    cases hfinite
  | error e' =>
    have hnone (w : Walker) (hbest : IsBest history.flatten w) : w.logDensity.isFinite = false := by
      refine Bool.eq_false_iff.mpr fun hfinite => ?_
      rw [record_eq_ok_iff.mpr ⟨w, hbest, hfinite, rfl⟩] at hrecord
      cases hrecord
    have he : e' = .noFiniteSample := by
      unfold record at hrecord
      split at hrecord
      · exact (Except.error.inj hrecord).symm
      · split at hrecord
        · cases hrecord
        · exact (Except.error.inj hrecord).symm
    rw [Except.error.injEq, he]
    exact ⟨fun h => ⟨h.symm, hnone⟩, fun h => h.1.symm⟩

/-- A run as it goes, over the ensemble of moves along lines, is the run. -/
theorem runIn?_run (s : Sampler) (starts moves : Draws α) :
    (s.runIn? t starts fun positions =>
      Ensemble.run (density t) t.prior.size s.iterations positions moves) =
      some (s.run t starts moves) := by
  unfold runIn? run runOver
  cases hvalues : (t.prior.drawMany s.walkers starts).1 with
  | error e => rfl
  | ok values =>
    dsimp only
    cases hhistory : Ensemble.run (density t) t.prior.size s.iterations
        (values.map (narrowAll t.prior)) moves with
    | error e => rfl
    | ok history =>
      have hpositions : ∀ position ∈ values.map (narrowAll t.prior),
          position.length = t.prior.size := by
        intro position hposition
        obtain ⟨xs, hxs, rfl⟩ := List.mem_map.mp hposition
        rw [narrowAll, List.length_zipWith, (Prior.length_of_drawMany hvalues).2 xs hxs,
          Prior.size, Nat.min_self]
      have hlength (w : Walker) : w ∈ history.flatten → w.position.length = t.prior.size :=
        (Ensemble.run_isHistory hpositions hhistory).length_position
      dsimp only
      rw [Tally.ofHistory?_eq hlength]
      exact Tally.close?_of hlength

/-- A run over any ensemble that reports, after each step, as many positions as there are walkers,
with any log-densities.  The chain has the assignments of all positions, step by step and walker by
walker.  There is a result exactly if the greatest log-density that is a number is finite; it is
that of the first walker that has it.  No position fails to become an assignment: where the values
of the best walker are looked at, they are those of a walker that was recorded. -/
theorem runIn?_recorded (s : Sampler) (starts : Draws α)
    (ensemble : List (List Single) → Except Ensemble.Error (List (List Walker)))
    {values : List (List α)} (hvalues : (t.prior.drawMany s.walkers starts).1 = .ok values)
    {history : List (List Walker)}
    (hensemble : ensemble (values.map (narrowAll t.prior)) = .ok history)
    (hhistory : Ensemble.IsHistory s.walkers t.prior.size s.iterations history) :
    ∃ tally outcome, Tally.ofHistory? t history = some tally ∧
      tally.chain.toList = history.flatten.map (fun w => t.prior.assign (widen w.position)) ∧
      tally.chain.size = s.walkers * s.iterations ∧
      (tally.bestLog.isFinite = true →
        ∃ w ∈ history.flatten, tally.best = widen w.position) ∧
      tally.close? t = some outcome ∧ s.runIn? t starts ensemble = some outcome ∧
      s.runOver t starts ensemble = outcome ∧
      (∀ result, outcome = .ok result ↔
        ∃ w, IsBest history.flatten w ∧ w.logDensity.isFinite = true ∧
          result = ⟨t.prior.assign (widen w.position), Scalar.ofSingle w.logDensity,
            tally.chain.toList⟩) ∧
      (∀ result, outcome = .ok result → result.best ∈ result.chain) ∧
      ∀ e, outcome = .error e ↔ e = .noFiniteSample ∧
        ∀ w, IsBest history.flatten w → w.logDensity.isFinite = false := by
  have hlength (w : Walker) : w ∈ history.flatten → w.position.length = t.prior.size :=
    hhistory.length_position
  have htally := Tally.ofHistory?_eq hlength
  have hclose := Tally.close?_of hlength
  refine ⟨Tally.of t history.flatten, record t history, htally, rfl, ?_, fun hfinite => ?_, hclose,
    ?_, ?_, fun _ => record_eq_ok_iff, fun result hresult => ?_, fun _ => record_eq_error_iff⟩
  · show (history.flatten.map _).toArray.size = _
    rw [List.size_toArray, List.length_map, hhistory.length_flatten]
  · rcases bestOf_cases history.flatten with ⟨hnone, -⟩ | ⟨w, hsome, hbest, -⟩
    · simp only [Tally.of, hnone] at hfinite
      cases hfinite
    · exact ⟨w, hbest.mem, by simp only [Tally.of, hsome, Option.map_some, Option.getD_some]⟩
  · rw [runIn?, hvalues]
    dsimp only
    rw [hensemble]
    dsimp only
    rw [htally]
    exact hclose
  · rw [runOver, hvalues]
    dsimp only
    rw [hensemble]
  · obtain ⟨w, hbest, -, rfl⟩ := record_eq_ok_iff.mp hresult
    exact List.mem_map_of_mem hbest.mem

/-- Two walkers in four dimensions: first a log-density that is no number and the least value, then
one twice. -/
def tiedHistory : List (List Walker) :=
  [[⟨List.replicate 4 ⟨0⟩, ⟨0x7FC00000⟩⟩, ⟨List.replicate 4 ⟨0⟩, Single.negInfinity⟩],
    [⟨List.replicate 4 Ensemble.half, Ensemble.one⟩, ⟨List.replicate 4 ⟨0⟩, Ensemble.one⟩]]

/-- The first of two walkers with the same log-density is the best. -/
theorem runIn?_recorded_tied :
    ∃ r t chain, Prior.build? ⟨false, [⟨.gaussian, none⟩], none⟩ [.a] tenBounds = some (.ok r) ∧
      Posterior.ofParts (JointLikelihood.toLikelihood
        ⟨[⟨⟨false, [⟨.gaussian, none⟩], none⟩, .a, #[.real 1], #[.real 3], rfl⟩],
          List.cons_ne_nil _ _⟩) r = .ok t ∧
      (⟨2, 2⟩ : Sampler).runIn? t Prior.lateNinth (fun _ => .ok tiedHistory) =
        some (.ok ⟨t.prior.assign (widen (List.replicate 4 Ensemble.half)),
          Scalar.ofSingle Ensemble.one, chain⟩) ∧ chain.length = 4 := by
  let m : Model := ⟨false, [⟨.gaussian, none⟩], none⟩
  let j : JointLikelihood Exact :=
    ⟨[⟨m, .a, #[.real 1], #[.real 3], rfl⟩], List.cons_ne_nil _ _⟩
  obtain ⟨r, hr⟩ := Prior.exists_build? validate_tenBounds m [.a]
  obtain ⟨t, ht⟩ : ∃ t, Posterior.ofParts j.toLikelihood r = .ok t := by
    rw [Posterior.exists_ofParts_iff]
    exact (covers_iff hr (by simp [j])).mpr (by simp [j])
  obtain ⟨-, hprior⟩ := Posterior.parts_of_ofParts ht
  have hsize : t.prior.size = 4 := by
    rw [hprior, Prior.size, ← List.length_map (·.key), Prior.keys_of_build? hr]
    decide
  obtain ⟨values, hvalues⟩ := Prior.exists_drawMany hr validate_tenBounds Prior.lateNinth_value 2
  rw [← hprior] at hvalues
  have hhistory : Ensemble.IsHistory 2 t.prior.size 2 tiedHistory := by
    rw [hsize]
    refine ⟨rfl, fun step hstep => ⟨?_, ?_⟩⟩
    · revert step
      decide
    · revert step
      decide
  obtain ⟨tally, outcome, -, -, hchain, -, -, hrun, -, hok, -⟩ :=
    runIn?_recorded ⟨2, 2⟩ Prior.lateNinth (fun _ => .ok tiedHistory) hvalues rfl hhistory
  have hbest : IsBest tiedHistory.flatten ⟨List.replicate 4 Ensemble.half, Ensemble.one⟩ :=
    ⟨by decide, tiedHistory.flatten.take 2, tiedHistory.flatten.drop 3, rfl, by decide, by decide⟩
  rw [(hok _).mpr ⟨_, hbest, by decide, rfl⟩] at hrun
  exact ⟨r, t, tally.chain.toList, hr, ht, hrun, hchain⟩

end Sampler

end PulseFit
