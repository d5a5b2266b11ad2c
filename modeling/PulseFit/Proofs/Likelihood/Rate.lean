import PulseFit.Proofs.Assignment
import PulseFit.Proofs.Likelihood.Channel
import PulseFit.Proofs.Rate.Positive

/-!
# Proofs.Likelihood.Rate — the rate is the superposition of its components

`superposition` adds up, over all components of all pulses, the rate at the values of the
component's own parameters and, under a lens, the magnified rate of a delayed image.  One term of
the summation adds one contribution, whatever the terms before it have left in the buffer
(`sumTerm_eq`), so the whole summation adds them all (`sum_eq`).
-/

namespace PulseFit

namespace ChannelLikelihood

variable {α : Type}

/-! ## The buffer -/

theorem lookup_eq {p : Assignment α} {value : Key → α} {k : Key}
    (h : p[k.text]? = some (value k)) : lookup p k = .ok (value k) := by
  rw [lookup, h]

/-- The values of keys are written over the front of a buffer, and the rest is left as it is. -/
theorem load_eq {p : Assignment α} {value : Key → α} {keys : List Key}
    (h : ∀ k ∈ keys, p[k.text]? = some (value k)) {buffer : List α}
    (hroom : keys.length ≤ buffer.length) :
    load p keys buffer = .ok (keys.map value ++ buffer.drop keys.length) := by
  induction keys generalizing buffer with
  | nil => cases buffer <;> rfl
  | cons k keys ih =>
    cases buffer with
    | nil => simp at hroom
    | cons y buffer =>
      have hk : lookup p k = .ok (value k) := lookup_eq (h k List.mem_cons_self)
      have hkeys := ih (fun k hk => h k (List.mem_cons_of_mem _ hk)) (Nat.le_of_succ_le_succ hroom)
      rw [load, hk, hkeys]
      rfl

/-! ## Lenses -/

/-- The lens of an assignment. -/
def lensOf (l : ChannelLikelihood α) (value : Key → α) : Option (Lens α) :=
  if l.model.lensed then some ⟨value (.lens .timeDelay), value (.lens .magnificationRatio)⟩
  else none

theorem lens?_eq {l : ChannelLikelihood α} {p : Assignment α} {value : Key → α}
    (h : ∀ k ∈ l.required, p[k.text]? = some (value k)) :
    l.lens? p = .ok (l.lensOf value) := by
  unfold lens? lensOf
  by_cases hl : l.model.lensed = true
  · have hk (q : LensQuantity) : lookup p (.lens q) = .ok (value (.lens q)) :=
      lookup_eq (h _ (mem_required.mpr (Model.mem_keys.mpr (.inl ⟨hl, rfl⟩))))
    rw [if_pos hl, if_pos hl, hk, hk]
    rfl
  · rw [if_neg hl, if_neg hl]
    rfl

/-- The same counts under another lens. -/
def lensing (l : ChannelLikelihood α) (lensed : Bool) : ChannelLikelihood α :=
  { l with model := { l.model with lensed } }

theorem required_lensing_subset (l : ChannelLikelihood α) {k : Key}
    (h : k ∈ (l.lensing false).required) : k ∈ (l.lensing true).required := by
  rcases Model.mem_keys.mp (mem_required.mp h) with ⟨hlensed, -⟩ | hbackground | hshape
  · cases hlensed
  · exact mem_required.mpr (Model.mem_keys.mpr (.inr (.inl hbackground)))
  · exact mem_required.mpr (Model.mem_keys.mpr (.inr (.inr hshape)))

variable [Scalar α]

/-! ## The superposition -/

/-- The value of a quantity at a pulse. -/
def valueAt (l : ChannelLikelihood α) (value : Key → α) (pulse : Nat) (q : ShapeQuantity) : α :=
  value (.shape q pulse l.channel)

/-- What a component of a pulse adds to the rate: its own rate and, under a lens, the magnified
rate of its delayed image. -/
def contribution (l : ChannelLikelihood α) (value : Key → α) (term : Component × Nat) :
    Array α :=
  let own := l.valueAt value term.2
  let rate := Rate.ofComponent term.1 own l.times
  if l.model.lensed then
    let image :=
      Rate.ofComponent term.1 (Rate.delayed term.1 (value (.lens .timeDelay)) own) l.times
    rate.zipWith (fun r i => r + value (.lens .magnificationRatio) * i) image
  else rate

/-- The background and the contributions of all components. -/
def superposition (l : ChannelLikelihood α) (value : Key → α) : Array α :=
  (l.model.components.map (l.contribution value)).foldl (·.zipWith (· + ·) ·)
    (Array.replicate l.size (value (.background l.channel)))

theorem size_foldl_zipWith {n : Nat} {xss : List (Array α)} (hxss : ∀ ys ∈ xss, ys.size = n)
    {xs : Array α} (hxs : xs.size = n) : (xss.foldl (·.zipWith (· + ·) ·) xs).size = n := by
  induction xss generalizing xs with
  | nil => exact hxs
  | cons ys xss ih =>
    refine ih (fun zs hzs => hxss zs (List.mem_cons_of_mem _ hzs)) ?_
    rw [Array.size_zipWith, hxs, hxss ys List.mem_cons_self, Nat.min_self]

variable [Scalar.LawfulSum α] {l : ChannelLikelihood α} {p : Assignment α} {value : Key → α}

open Scalar (LawfulSum)

theorem size_contribution (l : ChannelLikelihood α) (value : Key → α) (term : Component × Nat) :
    (l.contribution value term).size = l.size := by
  unfold contribution
  by_cases hl : l.model.lensed = true
  · simp [hl, Rate.size_ofComponent, size]
  · simp [hl, Rate.size_ofComponent, size]

/-! ## One term -/

theorem addTimes_eq (c : Component) (v : ShapeQuantity → α) (factor : α) {sum : Array α}
    (hsum : sum.size = l.size) :
    l.addTimes c (c.quantities.map v) factor sum =
      sum.zipWith (fun y r => y + factor * r) (Rate.ofComponent c v l.times) := by
  unfold addTimes
  rw [Rate.addComponent?_eq c v factor hsum]
  rfl

/-- A component whose values stand in the buffer adds its contribution. -/
theorem addTerm_eq (value : Key → α) {s : Summation α} (hsum : s.sum.size = l.size)
    {c : Component} {pulse : Nat}
    (hvalues : s.buffer.take c.quantities.length = c.quantities.map (l.valueAt value pulse)) :
    ∃ buffer, buffer.length = s.buffer.length ∧
      l.addTerm (l.lensOf value) c s =
        ⟨buffer, s.sum.zipWith (· + ·) (l.contribution value (c, pulse))⟩ := by
  unfold addTerm lensOf contribution
  by_cases hl : l.model.lensed = true
  · refine ⟨s.buffer.modify c.timeIndex (· + value (.lens .timeDelay)), List.length_modify .., ?_⟩
    have hsize (v : ShapeQuantity → α) : (Rate.ofComponent c v l.times).size = l.size :=
      Rate.size_ofComponent c v l.times
    have hfirst : (s.sum.zipWith (fun y r => y + 1.0 * r)
        (Rate.ofComponent c (l.valueAt value pulse) l.times)).size = l.size := by
      simp [hsize, hsum]
    simp only [hl, if_true, List.take_modify, hvalues, Rate.modify_timeIndex,
      addTimes_eq _ _ _ hsum, addTimes_eq _ _ _ hfirst]
    refine congrArg (Summation.mk _) (Array.ext (by simp [hsize, hsum]) fun k _ _ => ?_)
    simp [LawfulSum.one_mul, LawfulSum.add_assoc]
  · refine ⟨s.buffer, rfl, ?_⟩
    simp only [hl, hvalues, addTimes_eq _ _ _ hsum, LawfulSum.one_mul]
    rfl

/-- One term adds its contribution, whatever stands in the buffer. -/
theorem sumTerm_eq {s : Summation α} (hbuffer : s.buffer.length = bufferSize)
    (hsum : s.sum.size = l.size) {term : Component × Nat}
    (h : ∀ k ∈ componentKeys l.channel term, p[k.text]? = some (value k)) :
    ∃ buffer, buffer.length = bufferSize ∧
      l.sumTerm p (l.lensOf value) s term =
        .ok ⟨buffer, s.sum.zipWith (· + ·) (l.contribution value term)⟩ := by
  obtain ⟨c, pulse⟩ := term
  have hcount : (componentKeys l.channel (c, pulse)).length = c.quantities.length :=
    List.length_map _
  have hroom : (componentKeys l.channel (c, pulse)).length ≤ s.buffer.length := by
    rw [hcount, hbuffer]
    exact length_quantities_le c
  have hkeys : (componentKeys l.channel (c, pulse)).map value =
      c.quantities.map (l.valueAt value pulse) := List.map_map
  have hload := load_eq h hroom
  rw [hkeys, hcount] at hload
  obtain ⟨buffer, hlength, hadd⟩ := addTerm_eq value
    (s := ⟨c.quantities.map (l.valueAt value pulse) ++ s.buffer.drop c.quantities.length, s.sum⟩)
    hsum (List.take_left' (List.length_map _))
  refine ⟨buffer, ?_, ?_⟩
  · rw [hlength, ← hbuffer, List.length_append, List.length_map, List.length_drop]
    omega
  · rw [sumTerm, hload]
    exact congrArg Except.ok hadd

/-! ## All terms -/

/-- Terms that come one after another add their contributions. -/
theorem foldlM_sumTerm {terms : List (Component × Nat)}
    (h : ∀ term ∈ terms, ∀ k ∈ componentKeys l.channel term, p[k.text]? = some (value k))
    {s : Summation α} (hbuffer : s.buffer.length = bufferSize) (hsum : s.sum.size = l.size) :
    ∃ buffer, terms.foldlM (l.sumTerm p (l.lensOf value)) s =
      .ok ⟨buffer, (terms.map (l.contribution value)).foldl (·.zipWith (· + ·) ·) s.sum⟩ := by
  induction terms generalizing s with
  | nil => exact ⟨s.buffer, rfl⟩
  | cons term terms ih =>
    obtain ⟨buffer, hlength, hterm⟩ := sumTerm_eq hbuffer hsum (h term List.mem_cons_self)
    have hnext : (s.sum.zipWith (· + ·) (l.contribution value term)).size = l.size := by
      simp [hsum, size_contribution]
    obtain ⟨last, hlast⟩ := ih (fun t ht => h t (List.mem_cons_of_mem _ ht))
      (s := ⟨buffer, s.sum.zipWith (· + ·) (l.contribution value term)⟩) hlength hnext
    refine ⟨last, ?_⟩
    rw [List.foldlM_cons, hterm]
    exact hlast

/-- A value that is added to all entries may be added first. -/
theorem map_add_foldl_zipWith (b : α) (xss : List (Array α)) (xs : Array α) :
    (xss.foldl (·.zipWith (· + ·) ·) xs).map (· + b) =
      xss.foldl (·.zipWith (· + ·) ·) (xs.map (· + b)) := by
  induction xss generalizing xs with
  | nil => rfl
  | cons ys xss ih =>
    have hstep : (xs.zipWith (· + ·) ys).map (· + b) = (xs.map (· + b)).zipWith (· + ·) ys := by
      refine Array.ext (by simp) fun k _ _ => ?_
      simp only [Array.getElem_map, Array.getElem_zipWith]
      exact LawfulSum.add_right_comm ..
    rw [List.foldl_cons, List.foldl_cons, ih, hstep]

/-- Where all parameters are there, the sum is the superposition. -/
theorem sum_eq (h : ∀ k ∈ l.required, p[k.text]? = some (value k)) :
    l.sum p = .ok (l.superposition value) := by
  have hbackground : lookup p (.background l.channel) = .ok (value (.background l.channel)) :=
    lookup_eq (h _ (mem_required.mpr (l.model.background_mem_keys l.channel)))
  have hterms : ∀ term ∈ l.model.components, ∀ k ∈ componentKeys l.channel term,
      p[k.text]? = some (value k) :=
    fun _ hterm k hk => h k (mem_required_of_mem_componentKeys hterm hk)
  obtain ⟨buffer, hfold⟩ := foldlM_sumTerm hterms
    (s := ⟨List.replicate bufferSize 0.0, Array.replicate l.size 0.0⟩) (by simp) (by simp)
  have hstart : (Array.replicate l.size (0.0 : α)).map (· + value (.background l.channel)) =
      Array.replicate l.size (value (.background l.channel)) := by
    rw [Array.map_replicate, LawfulSum.zero_add]
  unfold ChannelLikelihood.sum superposition
  rw [lens?_eq h, hbackground, ← hstart, ← map_add_foldl_zipWith]
  simp only [marked, bind, Except.bind] at hfold ⊢
  rw [hfold]
  rfl

/-! ## The rate -/

theorem size_superposition (l : ChannelLikelihood α) (value : Key → α) :
    (l.superposition value).size = l.size := by
  refine size_foldl_zipWith (fun xs hxs => ?_) Array.size_replicate
  obtain ⟨term, -, rfl⟩ := List.mem_map.mp hxs
  exact size_contribution l value term

/-! ## A lens that doubles -/

theorem two_mul_add (x y : α) : 2.0 * x + 2.0 * y = 2.0 * (x + y) := by
  rw [LawfulSum.two_mul, LawfulSum.two_mul, LawfulSum.two_mul, LawfulSum.add_add_add_comm]

/-- Doubled arrays add up to the double of the sum. -/
theorem foldl_zipWith_two_mul (xss : List (Array α)) (xs : Array α) :
    (xss.map (·.map (2.0 * ·))).foldl (·.zipWith (· + ·) ·) (xs.map (2.0 * ·)) =
      (xss.foldl (·.zipWith (· + ·) ·) xs).map (2.0 * ·) := by
  induction xss generalizing xs with
  | nil => rfl
  | cons ys xss ih =>
    have hstep : (xs.map (2.0 * ·)).zipWith (· + ·) (ys.map (2.0 * ·)) =
        (xs.zipWith (· + ·) ys).map (2.0 * ·) := by
      refine Array.ext (by simp) fun k _ _ => ?_
      simp only [Array.getElem_map, Array.getElem_zipWith]
      exact two_mul_add ..
    rw [List.map_cons, List.foldl_cons, List.foldl_cons, hstep, ih]

/-- A lens that neither delays nor magnifies doubles a contribution. -/
theorem contribution_doubled (hdelay : value (.lens .timeDelay) = 0.0)
    (hmagnification : value (.lens .magnificationRatio) = 1.0) (term : Component × Nat) :
    (l.lensing true).contribution value term =
      ((l.lensing false).contribution value term).map (2.0 * ·) := by
  have hdelayed (v : ShapeQuantity → α) : Rate.delayed term.1 0.0 v = v := by
    funext q
    simp [Rate.delayed, LawfulSum.add_zero]
  let rate := Rate.ofComponent term.1 (l.valueAt value term.2) l.times
  have hplain : (l.lensing false).contribution value term = rate := rfl
  have hlensed : (l.lensing true).contribution value term =
      rate.zipWith (fun r i => r + value (.lens .magnificationRatio) * i)
        (Rate.ofComponent term.1 (Rate.delayed term.1 (value (.lens .timeDelay))
          (l.valueAt value term.2)) l.times) := rfl
  rw [hplain, hlensed, hdelay, hmagnification, hdelayed]
  refine Array.ext (by simp [rate]) fun k _ _ => ?_
  simp [rate, LawfulSum.one_mul, LawfulSum.two_mul]

/-- Without background it doubles the superposition. -/
theorem superposition_doubled (hbackground : value (.background l.channel) = 0.0)
    (hdelay : value (.lens .timeDelay) = 0.0)
    (hmagnification : value (.lens .magnificationRatio) = 1.0) :
    (l.lensing true).superposition value =
      ((l.lensing false).superposition value).map (2.0 * ·) := by
  have hzeros : Array.replicate l.size (0.0 : α) =
      (Array.replicate l.size (0.0 : α)).map (2.0 * ·) := by
    rw [Array.map_replicate, LawfulSum.two_mul, LawfulSum.zero_add]
  have hterms : (l.lensing true).model.components.map ((l.lensing true).contribution value) =
      ((l.lensing false).model.components.map ((l.lensing false).contribution value)).map
        (·.map (2.0 * ·)) := by
    rw [List.map_map]
    exact List.map_congr_left fun term _ => contribution_doubled hdelay hmagnification term
  show List.foldl _ (Array.replicate l.size (value (.background l.channel))) _ =
    (List.foldl _ (Array.replicate l.size (value (.background l.channel))) _).map _
  rw [hbackground, hterms, ← foldl_zipWith_two_mul, ← hzeros]

/-- A doubled sum is clipped where the sum is. -/
theorem clip_map_two_mul (sum : Array α) : clip (sum.map (2.0 * ·)) = (clip sum).map (2.0 * ·) := by
  have hiff (x : α) : 2.0 * x < 0.0 ↔ x < 0.0 := by
    rw [LawfulSum.two_mul, LawfulSum.add_self_neg_iff]
  by_cases h : ∃ x ∈ sum, x < 0.0
  · have hdouble : ∃ x ∈ sum.map (2.0 * ·), x < 0.0 := by
      obtain ⟨x, hx, hneg⟩ := h
      exact ⟨2.0 * x, Array.mem_map_of_mem hx, (hiff x).mpr hneg⟩
    rw [clip_of_neg h, clip_of_neg hdouble, Array.map_replicate, LawfulSum.two_mul,
      LawfulSum.zero_add, Array.size_map]
  · have h : ∀ x ∈ sum, ¬ x < 0.0 := fun x hx hneg => h ⟨x, hx, hneg⟩
    have hdouble : ∀ x ∈ sum.map (2.0 * ·), ¬ x < 0.0 := by
      intro x hx
      obtain ⟨y, hy, rfl⟩ := Array.mem_map.mp hx
      rw [hiff]
      exact h y hy
    rw [clip_of_not_neg h, clip_of_not_neg hdouble]

/-- The rate of an assignment with all parameters is the superposition of background, components
and lensed images, or all zeros where that is negative anywhere.  Without background, a lens that
neither delays nor magnifies doubles it. -/
theorem rate_superposition (l : ChannelLikelihood α) :
    (∀ (p : Assignment α) (value : Key → α),
      (∀ k ∈ l.required, p[k.text]? = some (value k)) →
      ((∀ x ∈ l.superposition value, ¬ x < 0.0) → l.rate p = .ok (l.superposition value)) ∧
      ((∃ x ∈ l.superposition value, x < 0.0) →
        l.rate p = .ok (Array.replicate l.size 0.0))) ∧
    ∀ (p : Assignment α) (value : Key → α),
      (∀ k ∈ (l.lensing true).required, p[k.text]? = some (value k)) →
      value (.background l.channel) = 0.0 → value (.lens .timeDelay) = 0.0 →
      value (.lens .magnificationRatio) = 1.0 →
      ∃ rate, (l.lensing false).rate p = .ok rate ∧
        (l.lensing true).rate p = .ok (rate.map (2.0 * ·)) := by
  refine ⟨fun p value h => ⟨fun hnonneg => ?_, fun hneg => ?_⟩,
    fun p value h hbackground hdelay hmagnification => ?_⟩
  · rw [rate, sum_eq h]
    exact congrArg Except.ok (clip_of_not_neg hnonneg)
  · rw [rate, sum_eq h]
    exact congrArg Except.ok ((clip_of_neg hneg).trans (by rw [size_superposition]))
  · have hunlensed : ∀ k ∈ (l.lensing false).required, p[k.text]? = some (value k) :=
      fun k hk => h k (required_lensing_subset l hk)
    refine ⟨clip ((l.lensing false).superposition value), ?_, ?_⟩
    · rw [rate, sum_eq hunlensed]
    · rw [rate, sum_eq h, superposition_doubled hbackground hdelay hmagnification,
        ← clip_map_two_mul]

/-- A lensed Gaussian pulse, one bin. -/
noncomputable def oneBin : ChannelLikelihood Exact :=
  ⟨⟨true, [⟨.gaussian, none⟩], none⟩, .a, #[.real 0], #[.real 1], rfl⟩

/-- All parameters are one but for the background. -/
noncomputable def onesOver (background : ℝ) : Key → Exact
  | .background _ => .real background
  | _ => .real 1

/-- All parameters are one but for background and delay. -/
noncomputable def undelayed : Key → Exact
  | .background _ | .lens .timeDelay => 0.0
  | _ => 1.0

theorem exists_superposition_oneBin (background : ℝ) :
    ∃ x : ℝ, 0 < x ∧ x ≤ 2 ∧
      oneBin.superposition (onesOver background) = #[.real (background + x)] := by
  obtain ⟨own, hownPos, hownLe, hownEq⟩ := Rate.exists_gaussian_real 1 1 1 0
  obtain ⟨image, himagePos, himageLe, himageEq⟩ := Rate.exists_gaussian_real (1 + 1) 1 1 0
  refine ⟨1 * own + 1 * (1 * image), by linarith, by linarith, ?_⟩
  have hcomponents : oneBin.model.components = [(.pulse .gaussian, 1)] := by decide
  have hsingle (f : Exact → Exact) : oneBin.times.map f = #[f (.real 0)] := by simp [oneBin]
  have hzip (f : Exact → Exact → Exact) (x y : Exact) : #[x].zipWith f #[y] = #[f x y] := by simp
  have hown : Rate.ofComponent (.pulse .gaussian) (oneBin.valueAt (onesOver background) 1)
      oneBin.times = #[.real (1 * own)] := (hsingle _).trans (congrArg (#[·]) hownEq)
  have himage : Rate.ofComponent (.pulse .gaussian) (Rate.delayed (.pulse .gaussian) (.real 1)
      (oneBin.valueAt (onesOver background) 1)) oneBin.times = #[.real (1 * image)] :=
    (hsingle _).trans (congrArg (#[·]) himageEq)
  have hcontribution : oneBin.contribution (onesOver background) (.pulse .gaussian, 1) =
      #[.real (1 * own) + .real 1 * .real (1 * image)] := by
    show Array.zipWith _ (Rate.ofComponent _ _ _) (Rate.ofComponent _ _ _) = _
    rw [hown]
    exact (congrArg _ himage).trans (hzip _ _ _)
  unfold superposition
  rw [hcomponents, List.map_singleton, hcontribution]
  exact hzip _ _ _

/-- A superposition that is positive, one that is negative and one that is doubled. -/
theorem rate_superposition_oneBin :
    oneBin.rate (.ofPairs (oneBin.required.map fun k => (k.text, onesOver 1 k))) =
      .ok (oneBin.superposition (onesOver 1)) ∧
    oneBin.rate (.ofPairs (oneBin.required.map fun k => (k.text, onesOver (-3) k))) =
      .ok (Array.replicate 1 0.0) ∧
    ∃ p rate, (oneBin.lensing false).rate p = .ok rate ∧
      (oneBin.lensing true).rate p = .ok (rate.map (2.0 * ·)) := by
  have h := rate_superposition oneBin
  have hrate (background : ℝ) := h.1 _ _ fun k hk =>
    Assignment.getElem?_ofPairs_text (onesOver background) hk
  obtain ⟨x, hx, -, hpos⟩ := exists_superposition_oneBin 1
  obtain ⟨y, -, hy, hneg⟩ := exists_superposition_oneBin (-3)
  refine ⟨(hrate 1).1 ?_, (hrate (-3)).2 ?_, .ofPairs
    ((oneBin.lensing true).required.map fun k => (k.text, undelayed k)), ?_⟩
  · have hnonneg : ¬ Exact.real (1 + x) < .real 0 := by
      rw [Exact.real_lt_real]
      linarith
    rw [hpos, Exact.zero_eq]
    simpa using hnonneg
  · have hlt : Exact.real (-3 + y) < .real 0 := by
      rw [Exact.real_lt_real]
      linarith
    rw [hneg, Exact.zero_eq]
    exact ⟨_, by simp, hlt⟩
  · exact h.2 _ undelayed (fun k hk => Assignment.getElem?_ofPairs_text undelayed hk) rfl rfl rfl

end ChannelLikelihood

end PulseFit
