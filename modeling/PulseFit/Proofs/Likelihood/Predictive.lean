import Mathlib.Data.List.Perm.Basic
import PulseFit.Likelihood.Predictive
import PulseFit.Proofs.Likelihood.Dependence
import PulseFit.Proofs.Likelihood.Outcome
import PulseFit.Proofs.Prior.Constraints
import PulseFit.Proofs.Quantile

/-!
# Proofs.Likelihood.Predictive — summaries of a sample of assignments

A sample has lines exactly if no assignment of it lacks a parameter, and they are the rates of its
assignments (`ofSample_eq_ok_iff`).  No parameter that a rate depends on is a derived one, so
derived parameters may be anything (`rate_withoutConstraints`).  Median and quantiles of a bin are
read off the sorted column of the lines, and a column is sorted to one array in whatever order it
comes, ties and values that are no numbers included; so all that is made of the lines forgets the
order of the sample (`ofSample_redrawn`).
-/

namespace PulseFit

namespace Assignment

variable {α : Type}

/-- Assignments that differ in derived parameters only. -/
def SameDraw (p q : Assignment α) : Prop :=
  ∀ name, isConstraint name = false → p[name]? = q[name]?

theorem sameDraw_withoutConstraints (p : Assignment α) : SameDraw p.withoutConstraints p := by
  intro name hname
  rw [getElem?_withoutConstraints, hname]
  rfl

theorem sameDraw_insert {name : String} (hname : isConstraint name = true) (p : Assignment α)
    (x : α) : SameDraw p (p.insert name x) := by
  intro other hother
  rw [getElem?_insert, if_neg]
  rintro rfl
  rw [hname] at hother
  cases hother

end Assignment

namespace ChannelLikelihood

variable {α : Type} [Scalar α] {l : ChannelLikelihood α} {p q : Assignment α}

/-- A rate does not depend on derived parameters. -/
theorem rate_of_sameDraw (h : p.SameDraw q) : l.rate p = l.rate q :=
  rate_congr fun k _ => h k.text (Assignment.isConstraint_text k)

theorem rate_withoutConstraints (l : ChannelLikelihood α) (p : Assignment α) :
    l.rate p.withoutConstraints = l.rate p :=
  rate_of_sameDraw p.sameDraw_withoutConstraints

end ChannelLikelihood

namespace Predictive

open Assignment (SameDraw)
open Scalar (LinearTotal)

variable {α : Type} [Scalar α] {l : ChannelLikelihood α} {sample sample' : List (Assignment α)}
  {lines lines' : List (Array α)} {r : Predictive α}

/-! ## Lines -/

/-- The summaries of lines. -/
def ofLines (l : ChannelLikelihood α) (lines : List (Array α)) : Predictive α where
  lines := lines
  median := medians lines l.size
  residuals := l.counts.zipWith (· - ·) (medians lines l.size)

theorem ofSample_eq (hsample : sample ≠ []) (l : ChannelLikelihood α) :
    ofSample l sample = ofLines l <$> sample.mapM l.rate := by
  have hempty : ¬ sample.isEmpty = true := by
    rwa [List.isEmpty_iff]
  unfold ofSample
  simp only [if_neg hempty, ChannelLikelihood.rate_withoutConstraints]
  cases sample.mapM l.rate <;> rfl

/-- A sample that has lines has the rates of its assignments. -/
theorem ofSample_eq_ok_iff (hsample : sample ≠ []) :
    ofSample l sample = .ok r ↔
      ∃ lines, sample.map l.rate = lines.map .ok ∧ r = ofLines l lines := by
  rw [ofSample_eq hsample]
  constructor
  · intro h
    cases hlines : sample.mapM l.rate with
    | error e =>
      rw [hlines] at h
      cases h
    | ok lines =>
      rw [hlines] at h
      cases h
      exact ⟨lines, map_eq_of_mapM_eq_ok hlines, rfl⟩
  · rintro ⟨lines, hlines, rfl⟩
    have hlength : sample.length = lines.length := by
      simpa using congrArg List.length hlines
    have hrates : sample.mapM l.rate = .ok lines := by
      refine mapM_eq_ok hlength fun i p line hp hline => ?_
      have hi := congrArg (·[i]?) hlines
      simpa [hp, hline] using hi
    rw [hrates]
    rfl

/-- A sample has lines exactly if its assignments have all parameters. -/
theorem exists_ofSample_iff (hsample : sample ≠ []) :
    (∃ r, ofSample l sample = .ok r) ↔ ∀ p ∈ sample, ∀ k ∈ l.required, k.text ∈ p := by
  constructor
  · rintro ⟨r, hr⟩ p hp
    obtain ⟨lines, hlines, -⟩ := (ofSample_eq_ok_iff hsample).mp hr
    have hmem : l.rate p ∈ lines.map Except.ok := hlines ▸ List.mem_map_of_mem hp
    obtain ⟨line, -, hline⟩ := List.mem_map.mp hmem
    cases hmissing : ChannelLikelihood.missing? p l.required with
    | none => exact ChannelLikelihood.missing?_eq_none.mp hmissing
    | some e =>
      rw [ChannelLikelihood.rate_of_missing? hmissing] at hline
      cases hline
  · intro h
    choose! line hline using fun p hp => ChannelLikelihood.exists_rate (h p hp)
    refine ⟨_, (ofSample_eq_ok_iff hsample).mpr ⟨sample.map line, ?_, rfl⟩⟩
    rw [List.map_map]
    exact List.map_congr_left hline

/-- The first assignment that lacks a parameter is the one that is reported. -/
theorem ofSample_of_missing {before after : List (Assignment α)} {p : Assignment α}
    {e : LikelihoodError α} (hbefore : ∀ q ∈ before, ∀ k ∈ l.required, k.text ∈ q)
    (hp : ChannelLikelihood.missing? p l.required = some e) :
    ofSample l (before ++ p :: after) = .error e := by
  have hrates : (before ++ p :: after).mapM l.rate = .error e :=
    mapM_eq_error (fun q hq => ChannelLikelihood.exists_rate (hbefore q hq))
      (ChannelLikelihood.rate_of_missing? hp)
  rw [ofSample_eq (by simp), hrates]
  rfl

/-- All lines have as many bins as the likelihood. -/
theorem size_of_mem_lines (hlines : sample.map l.rate = lines.map .ok) {line : Array α}
    (hline : line ∈ lines) : line.size = l.size := by
  have hmem : Except.ok line ∈ sample.map l.rate := hlines ▸ List.mem_map_of_mem hline
  obtain ⟨p, -, hp⟩ := List.mem_map.mp hmem
  rw [ChannelLikelihood.size_rate hp, l.size_eq, ChannelLikelihood.size]

/-! ## Columns -/

/-- The values of all lines in a bin, which all of them have. -/
def IsColumn (lines : List (Array α)) (i : Nat) (column : List α) : Prop :=
  lines.map (·[i]?) = column.map some

theorem exists_column {size i : Nat} (hsize : ∀ line ∈ lines, line.size = size) (hi : i < size) :
    ∃ column, IsColumn lines i column ∧ bin lines i = Quantile.sorted column := by
  refine ⟨lines.map (·.getD i 0.0), ?_, rfl⟩
  rw [IsColumn, List.map_map]
  refine List.map_congr_left fun line hline => ?_
  have hlt : i < line.size := (hsize line hline).symm ▸ hi
  simp [Array.getD, hlt]

theorem size_bin (lines : List (Array α)) (i : Nat) : (bin lines i).size = lines.length := by
  rw [bin, Quantile.size_sorted, List.length_map]

theorem getElem?_medians (hlines : lines ≠ []) {size i : Nat} (hi : i < size) :
    (medians lines size)[i]? = Quantile.median? (bin lines i) := by
  have hpos : 0 < (bin lines i).size := by
    rw [size_bin]
    exact List.length_pos_iff.mpr hlines
  obtain ⟨x, hx⟩ := Quantile.exists_median? hpos
  simp [medians, hi, hx]

/-- The quantiles for a fraction, bin by bin. -/
theorem exists_quantile? (hlines : r.lines ≠ []) {q : α} (hq : 0.0 ≤ q ∧ q ≤ 1.0) :
    ∃ xs, r.quantile? q = some xs ∧
      ∀ i < r.median.size, xs[i]? = Quantile.quantile? (bin r.lines i) q := by
  have hpos (i : Nat) : 0 < (bin r.lines i).size := by
    rw [size_bin]
    exact List.length_pos_iff.mpr hlines
  choose x hx using fun i => Quantile.exists_quantile? (hpos i) hq
  have hall : (List.range r.median.size).mapM (fun i => Quantile.quantile? (bin r.lines i) q) =
      some ((List.range r.median.size).map x) := mapM_eq_pure_map fun i _ => hx i
  refine ⟨((List.range r.median.size).map x).toArray, ?_, fun i hi => ?_⟩
  · rw [quantile?, hall]
    rfl
  · simp [hi, hx]

/-! ## Order -/

section

variable [LinearTotal α]

theorem bin_perm (h : lines.Perm lines') (i : Nat) : bin lines i = bin lines' i :=
  Quantile.sorted_perm (h.map _)

theorem medians_perm (h : lines.Perm lines') (size : Nat) :
    medians lines size = medians lines' size := by
  unfold medians
  simp only [bin_perm h]

end

/-- The same draws in any order, with any derived parameters. -/
def Redrawn (sample sample' : List (Assignment α)) : Prop :=
  ∃ permuted, sample.Perm permuted ∧ List.Forall₂ SameDraw permuted sample'

/-- The lines of redrawn assignments are the same in another order. -/
theorem Redrawn.exists_lines (h : Redrawn sample sample')
    (hlines : sample.map l.rate = lines.map .ok) :
    ∃ lines', sample'.map l.rate = lines'.map .ok ∧ lines.Perm lines' := by
  obtain ⟨permuted, hperm, hsame⟩ := h
  have hrates : permuted.map l.rate = sample'.map l.rate := by
    clear hperm
    induction hsame with
    | nil => rfl
    | cons hpq _ ih =>
      rw [List.map_cons, List.map_cons, ih, ChannelLikelihood.rate_of_sameDraw hpq]
  have hall : (lines.map Except.ok).Perm (sample'.map l.rate) := by
    rw [← hlines, ← hrates]
    exact hperm.map l.rate
  have hok : sample'.map l.rate ∈ Set.range (List.map Except.ok) := by
    rw [Set.range_list_map]
    intro x hx
    obtain ⟨line, -, hline⟩ := List.mem_map.mp (hall.mem_iff.mpr hx)
    exact ⟨line, hline⟩
  obtain ⟨lines', hlines'⟩ := hok
  rw [← hlines'] at hall ⊢
  exact ⟨lines', rfl, (List.map_perm_map_iff fun _ _ => Except.ok.inj).mp hall⟩

/-- Median, residuals and quantiles of redrawn assignments are the same. -/
theorem ofLines_perm [LinearTotal α] (h : lines.Perm lines') :
    (ofLines l lines').median = (ofLines l lines).median ∧
      (ofLines l lines').residuals = (ofLines l lines).residuals ∧
      ∀ q, (ofLines l lines').quantile? q = (ofLines l lines).quantile? q := by
  have hmedian := medians_perm h l.size
  refine ⟨hmedian.symm, ?_, fun q => ?_⟩
  · simp only [ofLines, hmedian]
  · simp only [ofLines, quantile?, hmedian, bin_perm h]

/-- A sample has lines exactly if no assignment of it lacks a parameter, and else reports the first
that one lacks.  Its lines are the rates of its assignments, in their order, and its median and
quantiles are those of the columns of the lines.  All that is made of the lines is the same for the
same draws in another order and with other derived parameters. -/
theorem ofSample_redrawn [LinearTotal α] (l : ChannelLikelihood α)
    {sample : List (Assignment α)} (hsample : sample ≠ []) :
    ((∃ r, ofSample l sample = .ok r) ↔ ∀ p ∈ sample, ∀ k ∈ l.required, k.text ∈ p) ∧
    (∀ before p after keys k keys', sample = before ++ p :: after →
      (∀ q ∈ before, ∀ k ∈ l.required, k.text ∈ q) → l.required = keys ++ k :: keys' →
      (∀ k' ∈ keys, k'.text ∈ p) → k.text ∉ p →
      ofSample l sample = .error (.missingParameter k.text)) ∧
    ∀ r, ofSample l sample = .ok r →
      sample.map l.rate = r.lines.map .ok ∧
      (r.median.size = l.size ∧ r.residuals = l.counts.zipWith (· - ·) r.median ∧
        ∀ i < l.size, ∃ column, IsColumn r.lines i column ∧
          r.median[i]? = Quantile.median? (Quantile.sorted column) ∧
          ∀ q xs, 0.0 ≤ q → q ≤ 1.0 → r.quantile? q = some xs →
            xs[i]? = Quantile.quantile? (Quantile.sorted column) q) ∧
      ∀ sample', Redrawn sample sample' → ∃ r', ofSample l sample' = .ok r' ∧
        r'.median = r.median ∧ r'.residuals = r.residuals ∧
        ∀ q, 0.0 ≤ q → q ≤ 1.0 → ∃ xs, r.quantile? q = some xs ∧ r'.quantile? q = some xs := by
  refine ⟨exists_ofSample_iff hsample, ?missing, fun r hr => ?_⟩
  case missing =>
    rintro before p after keys k keys' rfl hbefore hkeys hfound hmissing
    refine ofSample_of_missing hbefore ?_
    rw [hkeys, ChannelLikelihood.missing?_eq_some hfound hmissing]
  obtain ⟨lines, hlines, rfl⟩ := (ofSample_eq_ok_iff hsample).mp hr
  have hne : lines ≠ [] := by
    rintro rfl
    exact hsample (List.map_eq_nil_iff.mp hlines)
  have hmedian : (ofLines l lines).median.size = l.size := Array.size_ofFn
  refine ⟨hlines, ⟨hmedian, rfl, fun i hi => ?column⟩, fun sample' hsample' => ?redrawn⟩
  case column =>
    obtain ⟨column, hcolumn, hbin⟩ := exists_column (fun _ => size_of_mem_lines hlines) hi
    refine ⟨column, hcolumn, ?_, fun q xs hlo hhi hxs => ?_⟩
    · rw [← hbin]
      exact getElem?_medians hne hi
    · obtain ⟨ys, hys, hplace⟩ := exists_quantile? (r := ofLines l lines) hne ⟨hlo, hhi⟩
      obtain rfl : ys = xs := Option.some.inj (hys.symm.trans hxs)
      rw [hplace i (hmedian.symm ▸ hi), ← hbin]
      rfl
  case redrawn =>
    obtain ⟨lines', hlines', hperm⟩ := hsample'.exists_lines hlines
    have hsample' : sample' ≠ [] := by
      rintro rfl
      rw [List.map_nil, List.nil_eq, List.map_eq_nil_iff] at hlines'
      exact hne (List.Perm.eq_nil (hlines' ▸ hperm))
    obtain ⟨hsame, hresiduals, hquantile⟩ := ofLines_perm (l := l) hperm
    refine ⟨_, (ofSample_eq_ok_iff hsample').mpr ⟨lines', hlines', rfl⟩, hsame, hresiduals,
      fun q hlo hhi => ?_⟩
    obtain ⟨xs, hxs, -⟩ := exists_quantile? (r := ofLines l lines) hne ⟨hlo, hhi⟩
    exact ⟨xs, hxs, (hquantile q).trans hxs⟩

open ChannelLikelihood (twoBins flat)

theorem rate_flat {background : Float} (h : ¬ 0.0 + background < 0.0) :
    twoBins.rate (flat background) = .ok #[0.0 + background, 0.0 + background] := by
  rw [ChannelLikelihood.rate, ChannelLikelihood.sum_flat]
  refine congrArg Except.ok (ChannelLikelihood.clip_of_not_neg fun x hx => ?_)
  rwa [(Array.mem_replicate.mp hx).2]

/-- A line of numbers and one of none, the other way round and with a derived parameter. -/
theorem ofSample_redrawn_twoBins :
    ∃ r r' : Predictive Float,
      ofSample twoBins [flat 2.0, flat (0.0 / 0.0)] = .ok r ∧
      ofSample twoBins [flat (0.0 / 0.0), (flat 2.0).insert "constraint_2_a" 7.0] = .ok r' ∧
      r.lines = [#[0.0 + 2.0, 0.0 + 2.0], #[0.0 + 0.0 / 0.0, 0.0 + 0.0 / 0.0]] ∧
      r'.median = r.median ∧ r'.residuals = r.residuals ∧
      ∃ xs, r.quantile? 0.5 = some xs ∧ r'.quantile? 0.5 = some xs := by
  have hsample : [flat 2.0, flat (0.0 / 0.0)] ≠ [] := List.cons_ne_nil _ _
  have hlines : [flat 2.0, flat (0.0 / 0.0)].map twoBins.rate =
      [#[0.0 + 2.0, 0.0 + 2.0], #[0.0 + 0.0 / 0.0, 0.0 + 0.0 / 0.0]].map .ok := by
    rw [List.map_cons, List.map_singleton, rate_flat (by decide), rate_flat (by decide)]
    rfl
  have hr := (ofSample_eq_ok_iff hsample).mpr ⟨_, hlines, rfl⟩
  have hredrawn : Redrawn [flat 2.0, flat (0.0 / 0.0)]
      [flat (0.0 / 0.0), (flat 2.0).insert "constraint_2_a" 7.0] :=
    ⟨_, .swap _ _ _, .cons (fun _ _ => rfl)
      (.cons (Assignment.sameDraw_insert (by decide) _ _) .nil)⟩
  obtain ⟨-, -, hall⟩ := ofSample_redrawn twoBins hsample
  obtain ⟨r', hr', hmedian, hresiduals, hquantile⟩ := (hall _ hr).2.2 _ hredrawn
  exact ⟨_, r', hr, hr', rfl, hmedian, hresiduals, hquantile 0.5 (by decide) (by decide)⟩

end Predictive

end PulseFit
