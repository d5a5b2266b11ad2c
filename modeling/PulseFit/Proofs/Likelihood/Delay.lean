import PulseFit.Proofs.Likelihood.Rate
import PulseFit.Proofs.Rate.Delay

/-!
# Proofs.Likelihood.Delay — the image of a lens is a delayed light curve

A lens adds to each component an image at once.  All images together are the magnified light curve
at earlier times (`rate_lensed`), provided that every component delays as a whole; the cosine of a
sine-Gaussian does not (`sineGaussian_not_delayed`), but then the phase can make up for it.
-/

namespace PulseFit

namespace ChannelLikelihood

open Scalar (LawfulSum LawfulDifference isFinite)

variable {α : Type} [Scalar α]

/-! ## The light curve -/

/-- The rates of all components at some times, without background and lens. -/
def lightCurve (l : ChannelLikelihood α) (value : Key → α) (times : Array α) : Array α :=
  (l.model.components.map fun term =>
    Rate.ofComponent term.1 (l.valueAt value term.2) times).foldl (·.zipWith (· + ·) ·)
      (Array.replicate times.size 0.0)

/-- A light curve with a background and a magnified image. -/
def withImage (background magnification : α) (own image : Array α) : Array α :=
  own.zipWith (fun r s => background + (r + magnification * s)) image

/-- The values of parameters whose cosines are ahead by what they turn during a delay. -/
def rephased (delay : α) (value : Key → α) : Key → α
  | .shape .sinePhi i ch => value (.shape .sinePhi i ch) + value (.shape .sineOmega i ch) * delay
  | k => value k

theorem valueAt_rephased (l : ChannelLikelihood α) (delay : α) (value : Key → α) (pulse : Nat) :
    l.valueAt (rephased delay value) pulse = Rate.rephased delay (l.valueAt value pulse) := by
  funext q
  cases q <;> rfl

variable [LawfulSum α] [LawfulDifference α] {l : ChannelLikelihood α} {value : Key → α}

/-- Sums of pairs, of which the second is magnified, are pairs of sums. -/
theorem foldl_zipWith_pairs {ι : Type} {n : Nat} {first second : ι → Array α}
    (hfirst : ∀ i, (first i).size = n) (hsecond : ∀ i, (second i).size = n) (b : α) {m : α}
    (hm : isFinite m = true) (terms : List ι) {xs ys : Array α} (hxs : xs.size = n)
    (hys : ys.size = n) :
    (terms.map fun i => (first i).zipWith (fun r s => r + m * s) (second i)).foldl
        (·.zipWith (· + ·) ·) (withImage b m xs ys) =
      withImage b m ((terms.map first).foldl (·.zipWith (· + ·) ·) xs)
        ((terms.map second).foldl (·.zipWith (· + ·) ·) ys) := by
  induction terms generalizing xs ys with
  | nil => rfl
  | cons i terms ih =>
    have hstep : (withImage b m xs ys).zipWith (· + ·)
        ((first i).zipWith (fun r s => r + m * s) (second i)) =
          withImage b m (xs.zipWith (· + ·) (first i)) (ys.zipWith (· + ·) (second i)) := by
      apply Array.ext
      · simp [withImage, hfirst, hsecond, hxs, hys]
      · intro k _ _
        simp only [withImage, Array.getElem_zipWith]
        rw [LawfulSum.add_assoc, LawfulSum.add_add_add_comm, LawfulDifference.mul_add _ _ hm]
    rw [List.map_cons, List.map_cons, List.map_cons, List.foldl_cons, List.foldl_cons,
      List.foldl_cons, hstep, ih (by simp [hfirst, hxs]) (by simp [hsecond, hys])]

/-- A lens adds the light curve at earlier times, magnified and with the phases ahead. -/
theorem superposition_lensed (hl : l.model.lensed = true)
    (hconvolution : ∀ term ∈ l.model.components, term.1 ≠ .pulse .convolution)
    (hturn : ∀ term ∈ l.model.components, term.1 = .residual .sineGaussian →
      isFinite (value (.lens .timeDelay)) = true ∧
        isFinite (l.valueAt value term.2 .sineOmega) = true)
    (hmagnification : isFinite (value (.lens .magnificationRatio)) = true) :
    l.superposition value =
      withImage (value (.background l.channel)) (value (.lens .magnificationRatio))
        (l.lightCurve value l.times)
        (l.lightCurve (rephased (value (.lens .timeDelay)) value)
          (l.times.map (· - value (.lens .timeDelay)))) := by
  let delay := value (.lens .timeDelay)
  let magnification := value (.lens .magnificationRatio)
  let background := value (.background l.channel)
  let own (term : Component × Nat) : Array α :=
    Rate.ofComponent term.1 (l.valueAt value term.2) l.times
  let image (term : Component × Nat) : Array α :=
    Rate.ofComponent term.1 (l.valueAt (rephased delay value) term.2) (l.times.map (· - delay))
  have hown : ∀ term, (own term).size = l.size := fun _ => Rate.size_ofComponent ..
  have himage : ∀ term, (image term).size = l.size := by
    intro term
    rw [Rate.size_ofComponent, Array.size_map]
    rfl
  have hterm : ∀ term ∈ l.model.components, l.contribution value term =
      (own term).zipWith (fun r s => r + magnification * s) (image term) := by
    intro term hterm
    have hdelayed : Rate.ofComponent term.1 (Rate.delayed term.1 delay (l.valueAt value term.2))
        l.times = image term := by
      rw [Rate.ofComponent_delayed (hconvolution term hterm) (hturn term hterm),
        ← valueAt_rephased]
    rw [← hdelayed]
    exact if_pos hl
  have hstart : Array.replicate l.size background = withImage background magnification
      (Array.replicate l.size 0.0) (Array.replicate l.size 0.0) := by
    rw [withImage, Array.zipWith_replicate, LawfulDifference.mul_zero hmagnification,
      LawfulSum.zero_add, LawfulSum.add_zero, Nat.min_self]
  have hsize : (l.times.map (· - delay)).size = l.size := Array.size_map
  unfold superposition lightCurve
  rw [List.map_congr_left hterm, hstart, hsize]
  exact foldl_zipWith_pairs hown himage background hmagnification l.model.components
    Array.size_replicate Array.size_replicate

omit [LawfulSum α] [LawfulDifference α] in
/-- Without a sine-Gaussian no phase matters. -/
theorem lightCurve_rephased
    (h : ∀ term ∈ l.model.components, term.1 ≠ .residual .sineGaussian) (delay : α)
    (times : Array α) :
    l.lightCurve (rephased delay value) times = l.lightCurve value times := by
  have hterm : ∀ term ∈ l.model.components,
      Rate.ofComponent term.1 (l.valueAt (rephased delay value) term.2) times =
        Rate.ofComponent term.1 (l.valueAt value term.2) times := by
    intro term hterm
    rw [valueAt_rephased, Rate.ofComponent_rephased (h term hterm)]
  unfold lightCurve
  rw [List.map_congr_left hterm]

/-! ## Components and rates under a lens -/

/-- The rate of a component, delayed by the quantity that places it in time, is that of the
component at earlier times, and the rate of a lensed model is that of its components with background
and the magnified rate at earlier times.  Convolutions are left out, and of a sine-Gaussian the
phase has to be ahead. -/
theorem rate_lensed :
    (∀ (c : Component) (value : ShapeQuantity → α) (delay factor : α) (times out : Array α),
      c ≠ .pulse .convolution → out.size = times.size →
      (c ≠ .residual .sineGaussian →
        Rate.addComponent? c ((c.quantities.map value).modify c.timeIndex (· + delay)) times
            factor out =
          Rate.addComponent? c (c.quantities.map value) (times.map (· - delay)) factor out) ∧
      (isFinite delay = true → isFinite (value .sineOmega) = true →
        Rate.addComponent? c ((c.quantities.map value).modify c.timeIndex (· + delay)) times
            factor out =
          Rate.addComponent? c (c.quantities.map (Rate.rephased delay value))
            (times.map (· - delay)) factor out)) ∧
    ∀ (l : ChannelLikelihood α) (p : Assignment α) (value : Key → α), l.model.lensed = true →
      (∀ x ∈ l.model.pulses, x.shape ≠ .convolution) →
      (∀ k ∈ l.required, p[k.text]? = some (value k)) →
      isFinite (value (.lens .magnificationRatio)) = true →
      ((∀ x ∈ l.model.pulses, x.residual ≠ some .sineGaussian) →
        l.rate p = .ok (clip (withImage (value (.background l.channel))
          (value (.lens .magnificationRatio)) (l.lightCurve value l.times)
          (l.lightCurve value (l.times.map (· - value (.lens .timeDelay))))))) ∧
      (isFinite (value (.lens .timeDelay)) = true →
        (∀ i ∈ l.model.indices (.residual .sineGaussian),
          isFinite (value (.shape .sineOmega i l.channel)) = true) →
        l.rate p = .ok (clip (withImage (value (.background l.channel))
          (value (.lens .magnificationRatio)) (l.lightCurve value l.times)
          (l.lightCurve (rephased (value (.lens .timeDelay)) value)
            (l.times.map (· - value (.lens .timeDelay))))))) := by
  constructor
  · intro c value delay factor times out hc hout
    constructor
    · intro hsine
      have hearlier : out.size = (times.map (· - delay)).size := by rw [hout, Array.size_map]
      rw [Rate.addComponent?_delayed hc (fun h => absurd h hsine) factor hout,
        Rate.addComponent?_rephased hsine delay value factor hearlier]
    · intro hdelay homega
      exact Rate.addComponent?_delayed hc (fun _ => ⟨hdelay, homega⟩) factor hout
  · intro l p value hl hshapes hread hmagnification
    have hconvolution := Model.ne_pulse_of_mem_components hshapes
    constructor
    · intro hresiduals
      have hsine := Model.ne_residual_of_mem_components hresiduals
      rw [rate, sum_eq hread, superposition_lensed hl hconvolution
        (fun term hterm h => absurd h (hsine term hterm)) hmagnification, lightCurve_rephased hsine]
    · intro hdelay homega
      have hturn : ∀ term ∈ l.model.components, term.1 = .residual .sineGaussian →
          isFinite (value (.lens .timeDelay)) = true ∧
            isFinite (l.valueAt value term.2 .sineOmega) = true := by
        intro term hterm h
        refine ⟨hdelay, homega term.2 ?_⟩
        rw [← h]
        exact Model.mem_components.mp hterm
      rw [rate, sum_eq hread, superposition_lensed hl hconvolution hturn hmagnification]

/-- A pulse with a Bessel residual and one with a sine-Gaussian, in two bins. -/
theorem rate_lensed_FbL :
    Rate.addComponent? (.residual .bessel)
        (((Component.quantities (.residual .bessel)).map fun _ => Exact.real 1).modify
          (Component.timeIndex (.residual .bessel)) (· + .real 2))
        #[.real 0, .real 3] (.real 1) #[.real 0, .real 0] =
      Rate.addComponent? (.residual .bessel)
        ((Component.quantities (.residual .bessel)).map fun _ => Exact.real 1)
        (#[Exact.real 0, .real 3].map (· - .real 2)) (.real 1) #[.real 0, .real 0] ∧
    (∃ (l : ChannelLikelihood Exact) (p : Assignment Exact),
      l.model = ⟨true, [⟨.fred, some .bessel⟩], none⟩ ∧
      l.rate p = .ok (clip (withImage (.real 1) (.real 1) (l.lightCurve (fun _ => .real 1) l.times)
        (l.lightCurve (fun _ => .real 1) (l.times.map (· - .real 1)))))) ∧
    ∃ (l : ChannelLikelihood Exact) (p : Assignment Exact),
      l.model = ⟨true, [⟨.gaussian, some .sineGaussian⟩], none⟩ ∧
      l.rate p = .ok (clip (withImage (.real 1) (.real 1) (l.lightCurve (fun _ => .real 1) l.times)
        (l.lightCurve (rephased (.real 1) fun _ => .real 1) (l.times.map (· - .real 1))))) := by
  obtain ⟨hcomponents, hlikelihoods⟩ := rate_lensed (α := Exact)
  have hread (l : ChannelLikelihood Exact) : ∀ k ∈ l.required, (Assignment.ofPairs
      (l.required.map fun k => (k.text, Exact.real 1)))[k.text]? = some (.real 1) :=
    fun _ hk => Assignment.getElem?_ofPairs_text (fun _ => Exact.real 1) hk
  refine ⟨(hcomponents (.residual .bessel) (fun _ => .real 1) (.real 2) (.real 1)
    #[.real 0, .real 3] #[.real 0, .real 0] (by decide) rfl).1 (by decide), ?_, ?_⟩
  · let l : ChannelLikelihood Exact := ⟨⟨true, [⟨.fred, some .bessel⟩], none⟩, .a,
      #[.real 0, .real 3], #[.real 2, .real 1], rfl⟩
    exact ⟨l, _, rfl, (hlikelihoods l _ _ rfl (by decide) (hread l) rfl).1 (by decide)⟩
  · let l : ChannelLikelihood Exact := ⟨⟨true, [⟨.gaussian, some .sineGaussian⟩], none⟩, .a,
      #[.real 0, .real 3], #[.real 2, .real 1], rfl⟩
    exact ⟨l, _, rfl, (hlikelihoods l _ _ rfl (by decide) (hread l) rfl).2 rfl fun _ _ => rfl⟩

/-- A sine-Gaussian that begins later by one and is taken at one is not what it is at zero: the
envelope is, but the cosine has turned by one. -/
theorem sineGaussian_not_delayed :
    Rate.addComponent? (.residual .sineGaussian)
        (([1, 0, 1, 1, 0].map Exact.real).modify
          (Component.timeIndex (.residual .sineGaussian)) (· + .real 1))
        #[.real 1] 1.0 #[0.0] ≠
      Rate.addComponent? (.residual .sineGaussian) ([1, 0, 1, 1, 0].map Exact.real)
        #[.real 1 - .real 1] 1.0 #[0.0] := by
  have hadded (start t : Exact) : Rate.addComponent? (.residual .sineGaussian)
      [.real 1, start, .real 1, .real 1, .real 0] #[t] 1.0 #[0.0] =
        some #[Rate.sineGaussian (.real 1) start (.real 1) (.real 1) (.real 0) t] := by
    simp only [Rate.addComponent?, Rate.profile?, List.size_toArray, List.length_singleton, if_true,
      List.zipWith_toArray, List.zipWith_cons_cons, List.zipWith_nil_left, LawfulSum.one_mul,
      LawfulSum.zero_add]
  have hdelayed : Rate.sineGaussian (.real 1) (.real 0 + .real 1) (.real 1) (.real 1) (.real 0)
      (.real 1) = Exact.real (Real.cos 1) := by
    rw [Exact.real_add_real, Rate.sineGaussian_real _ _ _ _ _ one_ne_zero]
    norm_num
  have hearlier : Rate.sineGaussian (.real 1) (.real 0) (.real 1) (.real 1) (.real 0)
      (.real 1 - .real 1) = Exact.real 1 := by
    rw [Exact.real_sub_real, Rate.sineGaussian_real _ _ _ _ _ one_ne_zero]
    norm_num
  have hlt : Real.cos 1 < 1 := by linarith [Real.cos_one_le]
  intro h
  have heq := (hadded _ _).symm.trans (h.trans (hadded _ _))
  rw [hdelayed, hearlier] at heq
  have hcos : Real.cos 1 = 1 := by simpa using heq
  exact hlt.ne hcos

end ChannelLikelihood

end PulseFit
