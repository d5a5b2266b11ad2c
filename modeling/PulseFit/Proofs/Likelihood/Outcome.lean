import PulseFit.Proofs.Assignment
import PulseFit.Proofs.Likelihood.Channel
import PulseFit.Proofs.Rate.Component
import PulseFit.Proofs.Scalar.Double

/-!
# Proofs.Likelihood.Outcome — what a log-likelihood may be

A log-likelihood is decided by the sum before it is clipped: by its negative bins, then by those
that are no finite numbers, then by those that are zero, and only then is anything added up
(`logAt_outcome`).  A rate that is clipped is all zeros, so its other bins are no longer seen, and a
negative rate is never reported.  It makes no difference in which buffer the rate is kept.
-/

namespace PulseFit.ChannelLikelihood

variable {α : Type} [Scalar α] {l : ChannelLikelihood α} {p : Assignment α}

open Scalar (LawfulOrder LawfulZero isFinite negInfinity)

/-! ## Sizes -/

theorem size_addTimes (c : Component) (values : List α) (factor : α) {sum : Array α}
    (hsum : sum.size = l.size) : (l.addTimes c values factor sum).size = l.size := by
  unfold addTimes
  cases h : Rate.addComponent? c values l.times factor sum with
  | none => exact hsum
  | some added => exact (Rate.size_of_addComponent? hsum h).trans hsum

theorem size_addTerm (lens : Option (Lens α)) (c : Component) {s : Summation α}
    (hsum : s.sum.size = l.size) : (l.addTerm lens c s).sum.size = l.size := by
  have hown := size_addTimes c (s.buffer.take c.quantities.length) 1.0 hsum
  cases lens with
  | none => exact hown
  | some lens => exact size_addTimes _ _ _ hown

/-- The array that a summation has reached, broken off or not. -/
def reached {β : Type} (sum : β → Array α) : Except (Interrupted α) β → Array α
  | .ok x => sum x
  | .error stop => stop.sum

theorem size_sumTerm {s : Summation α} (hsum : s.sum.size = l.size) (lens : Option (Lens α))
    (term : Component × Nat) : (reached (·.sum) (l.sumTerm p lens s term)).size = l.size := by
  unfold sumTerm
  cases load p (componentKeys l.channel term) s.buffer with
  | error e => exact hsum
  | ok buffer => exact size_addTerm lens term.1 hsum

/-- Every term keeps a bin for each time, so they do one after another. -/
theorem size_foldlM (terms : List (Component × Nat)) {s : Summation α}
    (hsum : s.sum.size = l.size) (lens : Option (Lens α)) :
    (reached (·.sum) (terms.foldlM (l.sumTerm p lens) s)).size = l.size := by
  induction terms generalizing s with
  | nil => exact hsum
  | cons term terms ih =>
    have hterm := size_sumTerm (p := p) hsum lens term
    rw [List.foldlM_cons]
    cases h : l.sumTerm p lens s term with
    | error stop =>
      rw [h] at hterm
      exact hterm
    | ok next =>
      rw [h] at hterm
      exact ih hterm

theorem size_sum (l : ChannelLikelihood α) (p : Assignment α) :
    (reached id (l.sum p)).size = l.size := by
  have hzeros : (Array.replicate l.size (0.0 : α)).size = l.size := Array.size_replicate
  unfold ChannelLikelihood.sum
  cases l.lens? p with
  | error e => exact hzeros
  | ok lens =>
    cases lookup p (.background l.channel) with
    | error e => exact hzeros
    | ok background =>
      have hterms := size_foldlM (p := p) l.model.components
        (s := ⟨List.replicate bufferSize 0.0, Array.replicate l.size 0.0⟩) hzeros lens
      simp only [marked, bind, Except.bind]
      cases h : l.model.components.foldlM (l.sumTerm p lens)
          ⟨List.replicate bufferSize 0.0, Array.replicate l.size 0.0⟩ with
      | error stop =>
        rw [h] at hterms
        exact hterms
      | ok final =>
        rw [h] at hterms
        exact Array.size_map.trans hterms

theorem size_of_sum {sum : Array α} (h : l.sum p = .ok sum) : sum.size = l.size := by
  have hsize := size_sum l p
  rw [h] at hsize
  exact hsize

theorem size_clip (rate : Array α) : (clip rate).size = rate.size := by
  unfold clip
  split
  · exact Array.size_map
  · rfl

theorem size_rate {rate : Array α} (h : l.rate p = .ok rate) : rate.size = l.counts.size := by
  unfold ChannelLikelihood.rate at h
  cases hsum : l.sum p with
  | error stop =>
    rw [hsum] at h
    cases h
  | ok sum =>
    rw [hsum] at h
    cases h
    rw [size_clip, size_of_sum hsum, l.size_eq, size]

/-! ## Buffers -/

/-- A buffer for the rate may hold anything before, and can be used again. -/
theorem logAtIn?_eq {buffer : Array α} (hbuffer : buffer.size = l.size) :
    ∃ after, after.size = l.size ∧ l.logAtIn? p buffer = some (after, l.logAt p) := by
  have hsize := size_sum l p
  unfold logAtIn? overwrite? logAt rate
  rw [if_pos hbuffer]
  cases h : l.sum p with
  | error stop =>
    rw [h] at hsize
    exact ⟨stop.sum, hsize, rfl⟩
  | ok sum =>
    rw [h] at hsize
    have hclip : (clip sum).size = l.size := (size_clip sum).trans hsize
    have hrate : l.logOfRate? (clip sum) = some (l.logOfRate (clip sum)) :=
      if_pos (hclip.trans l.size_eq.symm)
    refine ⟨clip sum, hclip, ?_⟩
    show (l.logOfRate? (clip sum)).bind _ = _
    rw [hrate]
    rfl

/-- The sum over bins, by their places. -/
theorem logSum_eq {rate counts : Array α} (hsize : counts.size = rate.size) :
    logSum rate.toList counts.toList = (List.range rate.size).foldl
      (fun acc k => acc - rate.getD k 0.0 + counts.getD k 0.0 * Scalar.ln (rate.getD k 0.0) -
        Scalar.lnGamma (counts.getD k 0.0 + 1.0)) 0.0 := by
  have hzip : rate.toList.zip counts.toList =
      (List.range rate.size).map fun k => (rate.getD k 0.0, counts.getD k 0.0) := by
    apply List.ext_getElem
    · simp [hsize]
    · intro k hk _
      have hlt : k < rate.size := by simpa [hsize] using hk
      simp [hlt, hsize]
  unfold logSum
  rw [hzip, List.foldl_map]

/-! ## Outcomes -/

/-- What becomes of a sum.  Negative bins come first, then those that are no finite numbers, then
those that are zero. -/
inductive Outcome (l : ChannelLikelihood α) (sum : Array α) : Except (LikelihoodError α) α → Prop
  | negative : (∃ x ∈ sum, x < 0.0) → Outcome l sum (.ok negInfinity)
  | nonFinite {before after : List α} {x : α} : (∀ y ∈ sum, ¬ y < 0.0) →
      sum.toList = before ++ x :: after → (∀ y ∈ before, isFinite y = true) →
      isFinite x = false → Outcome l sum (.error (.nonFiniteRate before.length))
  | zero : (∀ y ∈ sum, ¬ y < 0.0) → (∀ y ∈ sum, isFinite y = true) →
      (∃ x ∈ sum, (x == 0.0) = true) → Outcome l sum (.ok negInfinity)
  | value : (∀ y ∈ sum, ¬ y < 0.0) → (∀ y ∈ sum, isFinite y = true) →
      (∀ x ∈ sum, (x == 0.0) = false) →
      Outcome l sum (.ok ((List.range l.size).foldl
        (fun acc k => acc - sum.getD k 0.0 + l.counts.getD k 0.0 * Scalar.ln (sum.getD k 0.0) -
          Scalar.lnGamma (l.counts.getD k 0.0 + 1.0)) 0.0))

/-- The first value that is no finite number stands in one place. -/
theorem findIdx_of_split {xs before after : List α} {x : α} (hxs : xs = before ++ x :: after)
    (hbefore : ∀ y ∈ before, isFinite y = true) (hx : isFinite x = false) :
    xs.findIdx (fun y => !isFinite y) = before.length := by
  have hnone : before.findIdx (fun y => !isFinite y) = before.length := by
    rw [List.findIdx_eq_length]
    intro y hy
    rw [hbefore y hy]
    rfl
  rw [hxs, List.findIdx_append, hnone, if_neg (Nat.lt_irrefl _), List.findIdx_cons, hx]
  exact Nat.zero_add _

/-- Of a sum there is one outcome only. -/
theorem Outcome.unique {sum : Array α} {result result' : Except (LikelihoodError α) α}
    (h : Outcome l sum result) (h' : Outcome l sum result') : result = result' := by
  have hsplit {before after : List α} {x : α} (hsum : sum.toList = before ++ x :: after)
      (hx : isFinite x = false) : ¬ ∀ y ∈ sum, isFinite y = true := by
    intro hfinite
    have hmem : x ∈ sum := by
      rw [← Array.mem_toList_iff, hsum]
      exact List.mem_append_right _ List.mem_cons_self
    exact Bool.false_ne_true (hx.symm.trans (hfinite x hmem))
  cases h with
  | negative hneg =>
    obtain ⟨x, hx, hlt⟩ := hneg
    cases h' with
    | negative _ => rfl
    | nonFinite hnonneg => exact absurd hlt (hnonneg x hx)
    | zero hnonneg => exact absurd hlt (hnonneg x hx)
    | value hnonneg => exact absurd hlt (hnonneg x hx)
  | nonFinite hnonneg hsum hbefore hx =>
    cases h' with
    | negative hneg =>
      obtain ⟨y, hy, hlt⟩ := hneg
      exact absurd hlt (hnonneg y hy)
    | nonFinite _ hsum' hbefore' hx' =>
      rw [← findIdx_of_split hsum hbefore hx, ← findIdx_of_split hsum' hbefore' hx']
    | zero _ hfinite => exact absurd hfinite (hsplit hsum hx)
    | value _ hfinite => exact absurd hfinite (hsplit hsum hx)
  | zero hnonneg hfinite hzero =>
    obtain ⟨x, hx, heq⟩ := hzero
    cases h' with
    | negative _ => rfl
    | nonFinite _ hsum _ hy => exact absurd hfinite (hsplit hsum hy)
    | zero => rfl
    | value _ _ hpos => exact absurd heq (Bool.eq_false_iff.mp (hpos x hx))
  | value hnonneg hfinite hpos =>
    cases h' with
    | negative hneg =>
      obtain ⟨x, hx, hlt⟩ := hneg
      exact absurd hlt (hnonneg x hx)
    | nonFinite _ hsum _ hy => exact absurd hfinite (hsplit hsum hy)
    | zero _ _ hzero =>
      obtain ⟨x, hx, heq⟩ := hzero
      exact absurd heq (Bool.eq_false_iff.mp (hpos x hx))
    | value => rfl

theorem Outcome.ne_negativeRate {sum : Array α} {result : Except (LikelihoodError α) α}
    (h : Outcome l sum result) (i : Nat) (x : α) : result ≠ .error (.negativeRate i x) := by
  cases h <;> exact nofun

variable [LawfulOrder α] [LawfulZero α]

/-- A rate of zeros, of which there is one at least, has no logarithm. -/
theorem logOfRate_zeros {n : Nat} (hn : 0 < n) :
    l.logOfRate (Array.replicate n 0.0) = .ok negInfinity := by
  have hmem : ∀ x ∈ Array.replicate n (0.0 : α), x = 0.0 :=
    fun x hx => (Array.mem_replicate.mp hx).2
  apply logOfRate_of_zero
  · intro x hx
    rw [hmem x hx]
    exact ⟨LawfulOrder.isFinite_zero, LawfulZero.zero_not_neg⟩
  · exact ⟨0.0, Array.mem_replicate.mpr ⟨by omega, rfl⟩, LawfulZero.zero_beq⟩

/-- The clipped rate has the outcome of its sum. -/
theorem outcome_clip {sum : Array α} (hsize : sum.size = l.size) :
    Outcome l sum (l.logOfRate (clip sum)) := by
  by_cases hneg : ∃ x ∈ sum, x < 0.0
  · have hsome : 0 < sum.size := by
      obtain ⟨x, hx, -⟩ := hneg
      exact Array.size_pos_of_mem hx
    rw [clip_of_neg hneg, logOfRate_zeros hsome]
    exact .negative hneg
  have hnonneg : ∀ x ∈ sum, ¬ x < 0.0 := fun x hx h => hneg ⟨x, hx, h⟩
  rw [clip_of_not_neg hnonneg]
  cases hfind : sum.toList.find? fun x => !isFinite x with
  | some x =>
    obtain ⟨hx, before, after, hsum, hbefore⟩ := List.find?_eq_some_iff_append.mp hfind
    have hx : isFinite x = false := by simpa using hx
    have hfinite : ∀ y ∈ before, isFinite y = true := fun y hy => by simpa using hbefore y hy
    have hgood : ∀ y ∈ before, isFinite y = true ∧ ¬ y < 0.0 := by
      intro y hy
      refine ⟨hfinite y hy, hnonneg y ?_⟩
      rw [← Array.mem_toList_iff, hsum]
      exact List.mem_append_left _ hy
    rw [logOfRate_of_nonFinite hsum hgood hx]
    exact .nonFinite hnonneg hsum hfinite hx
  | none =>
    have hfinite : ∀ x ∈ sum, isFinite x = true := by
      intro x hx
      simpa using List.find?_eq_none.mp hfind x (Array.mem_toList_iff.mpr hx)
    have hgood : ∀ x ∈ sum, isFinite x = true ∧ ¬ x < 0.0 :=
      fun x hx => ⟨hfinite x hx, hnonneg x hx⟩
    by_cases hzero : ∃ x ∈ sum, (x == 0.0) = true
    · rw [logOfRate_of_zero hgood hzero]
      exact .zero hnonneg hfinite hzero
    · have hpos : ∀ x ∈ sum, (x == 0.0) = false := by
        intro x hx
        exact Bool.eq_false_iff.mpr fun h => hzero ⟨x, hx, h⟩
      rw [logOfRate_of_pos hgood hpos, logSum_eq (l.size_eq.trans hsize.symm), hsize]
      exact .value hnonneg hfinite hpos

/-- The outcome where all parameters have values. -/
theorem exists_outcome (h : ∀ k ∈ l.required, k.text ∈ p) :
    ∃ sum, l.sum p = .ok sum ∧ sum.size = l.size ∧ Outcome l sum (l.logAt p) := by
  obtain ⟨sum, hsum⟩ := exists_sum h
  refine ⟨sum, hsum, size_of_sum hsum, ?_⟩
  rw [logAt, rate, hsum]
  exact outcome_clip (size_of_sum hsum)

/-- A log-likelihood lacks the first parameter that has no value, or is the outcome of the sum
before clipping.  A negative rate is never reported.  By way of the rate, as a whole or in a buffer
that may hold anything, it is the same. -/
theorem logAt_outcome (l : ChannelLikelihood α) (p : Assignment α) :
    (∀ before k after, l.required = before ++ k :: after → (∀ k' ∈ before, k'.text ∈ p) →
      k.text ∉ p → l.logAt p = .error (.missingParameter k.text)) ∧
    ((∀ k ∈ l.required, k.text ∈ p) → ∃ sum, l.sum p = .ok sum ∧ sum.size = l.size ∧
      ∀ result, l.logAt p = result ↔ Outcome l sum result) ∧
    (∀ i x, l.logAt p ≠ .error (.negativeRate i x)) ∧
    (∀ e, l.rate p = .error e → l.logAt p = .error e) ∧
    (∀ rate, l.rate p = .ok rate → l.logOfRate? rate = some (l.logAt p)) ∧
    ∀ buffer, buffer.size = l.size →
      ∃ after, after.size = l.size ∧ l.logAtIn? p buffer = some (after, l.logAt p) := by
  refine ⟨?missing, ?outcome, ?negative, ?failed, ?whole, fun _ => logAtIn?_eq⟩
  case missing =>
    intro before k after hkeys hbefore hk
    apply logAt_of_missing?
    rw [hkeys, missing?_eq_some hbefore hk]
  case outcome =>
    intro h
    obtain ⟨sum, hsum, hsize, houtcome⟩ := exists_outcome h
    refine ⟨sum, hsum, hsize, fun result => ⟨?_, houtcome.unique⟩⟩
    rintro rfl
    exact houtcome
  case negative =>
    intro i x
    cases hmissing : missing? p l.required with
    | some e =>
      obtain ⟨k, rfl⟩ := exists_of_missing? hmissing
      rw [logAt_of_missing? hmissing]
      exact nofun
    | none =>
      obtain ⟨sum, -, -, houtcome⟩ := exists_outcome (missing?_eq_none.mp hmissing)
      exact houtcome.ne_negativeRate i x
  case failed =>
    intro e h
    rw [logAt, h]
    rfl
  case whole =>
    intro rate h
    rw [logAt, h]
    exact if_pos (size_rate h)

/-- Two bins of a model without pulses, in double precision. -/
def twoBins : ChannelLikelihood Float :=
  ⟨⟨false, [], none⟩, .a, #[0.0, 1.0], #[3.0, 2.0], by simp⟩

/-- A background and nothing else. -/
def flat (background : Float) : Assignment Float :=
  .ofPairs (twoBins.required.map fun k => (k.text, background))

theorem getElem?_flat (background : Float) {k : Key} (hk : k ∈ twoBins.required) :
    (flat background)[k.text]? = some background :=
  Assignment.getElem?_ofPairs_text (fun _ => background) hk

theorem sum_flat (background : Float) :
    twoBins.sum (flat background) = .ok (Array.replicate 2 (0.0 + background)) := by
  have hlookup : lookup (flat background) (.background .a) = .ok background := by
    have hread : (flat background)[(Key.background .a).text]? = some background :=
      getElem?_flat background List.mem_cons_self
    unfold lookup
    rw [hread]
  have hsum : twoBins.sum (flat background) =
      .ok ((Array.replicate 2 0.0).map (· + background)) := by
    unfold ChannelLikelihood.sum
    rw [show twoBins.channel = .a from rfl, hlookup]
    rfl
  rw [hsum, Array.map_replicate]

/-- A parameter is missing, bins are negative, bins are no numbers. -/
theorem logAt_outcome_twoBins :
    twoBins.logAt (.ofPairs []) = .error (.missingParameter "background_a") ∧
    twoBins.logAt (flat (-1.0)) = .ok negInfinity ∧
    twoBins.logAt (flat (0.0 / 0.0)) = .error (.nonFiniteRate 0) := by
  obtain ⟨hmissing, -⟩ := logAt_outcome twoBins (.ofPairs [])
  have hread (background : Float) : ∀ k ∈ twoBins.required, k.text ∈ flat background := by
    intro k hk
    rw [Std.ExtTreeMap.mem_iff_isSome_getElem?, getElem?_flat background hk]
    rfl
  have houtcome (background : Float) : ∀ result, twoBins.logAt (flat background) = result ↔
      Outcome twoBins (Array.replicate 2 (0.0 + background)) result := by
    obtain ⟨sum, hsum, -, h⟩ := (logAt_outcome twoBins (flat background)).2.1 (hread background)
    rw [sum_flat] at hsum
    cases hsum
    exact h
  refine ⟨hmissing [] (.background .a) [] rfl nofun (by simp [Assignment.mem_ofPairs]), ?_, ?_⟩
  · have hneg : (0.0 + -1.0 : Float) < 0.0 := by decide
    apply (houtcome (-1.0) _).mpr
    exact .negative ⟨0.0 + -1.0, by simp, hneg⟩
  · have hnonneg : ¬ (0.0 + 0.0 / 0.0 : Float) < 0.0 := by decide
    have hinfinite : isFinite (0.0 + 0.0 / 0.0 : Float) = false := by decide
    have hsplit : (Array.replicate 2 (0.0 + 0.0 / 0.0 : Float)).toList =
        [] ++ (0.0 + 0.0 / 0.0) :: [0.0 + 0.0 / 0.0] := Array.toList_replicate ..
    have hnone : ∀ y ∈ ([] : List Float), isFinite y = true := nofun
    apply (houtcome (0.0 / 0.0) _).mpr
    refine .nonFinite (fun y hy => ?_) hsplit hnone hinfinite
    rw [(Array.mem_replicate.mp hy).2]
    exact hnonneg

end PulseFit.ChannelLikelihood
