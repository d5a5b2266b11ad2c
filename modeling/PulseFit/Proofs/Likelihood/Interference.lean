import PulseFit.Proofs.Likelihood.Dependence
import PulseFit.Proofs.Likelihood.Joint
import PulseFit.Proofs.Likelihood.Positive

/-!
# Proofs.Likelihood.Interference — channels do not interfere

The parameters of a channel carry its letter, so what is changed in one channel is not read in
another (`getElem?_eq_of_agreeOff`): the likelihood of every other channel keeps its value or its
error.  A joint likelihood adds the values of its channels, and so changes by as much as the one
channel does (`exists_change`).
-/

namespace PulseFit

variable {α : Type} {ch : Channel} {p q : Assignment α}

namespace Assignment

/-- Two assignments agree but for the names of parameters of a channel. -/
def AgreeOff (ch : Channel) (p q : Assignment α) : Prop :=
  ∀ s, (∀ k, Key.parse s = .ok k → k.channel? ≠ some ch) → p[s]? = q[s]?

/-- A parameter of the channel may be given another value. -/
theorem agreeOff_insert {k : Key} (hk : k.Numbered) (hch : k.channel? = some ch) (x : α) :
    AgreeOff ch p (p.insert k.text x) := by
  intro s hs
  have hne : k.text ≠ s := by
    rintro rfl
    exact hs k (Key.parse_text hk) hch
  rw [getElem?_insert, if_neg hne]

end Assignment

namespace ChannelLikelihood

/-- Assignments that agree but for one channel agree on what is read in another. -/
theorem getElem?_eq_of_agreeOff (h : p.AgreeOff ch q) {l : ChannelLikelihood α}
    (hl : l.channel ≠ ch) {k : Key} (hk : k ∈ l.required) : p[k.text]? = q[k.text]? := by
  apply h
  intro k' hparse hch
  have hkch : k.channel? = some ch := Key.channel?_of_parse_text hparse hch
  have hscope : k.quantity.scope ≠ .shared := by
    intro hshared
    cases k with
    | lens quantity => cases hkch
    | background ch' => cases hshared
    | shape quantity i ch' => cases hshared
  have hown : k.channel? = some l.channel :=
    Model.channel?_of_mem_keys (mem_required.mp hk) hscope
  exact hl (Option.some.inj (hown.symm.trans hkch))

/-- A likelihood of another channel has the same rate and the same value, or the same error. -/
theorem eq_of_agreeOff [Scalar α] (h : p.AgreeOff ch q) {l : ChannelLikelihood α}
    (hl : l.channel ≠ ch) : l.rate p = l.rate q ∧ l.logAt p = l.logAt q := by
  have hread : ∀ k ∈ l.required, p[k.text]? = q[k.text]? :=
    fun _ hk => getElem?_eq_of_agreeOff h hl hk
  exact ⟨rate_congr hread, logAt_congr hread⟩

end ChannelLikelihood

namespace JointLikelihood

open Scalar (ExactReals)
open Scalar.ExactReals (real)

variable [Scalar α] {j : JointLikelihood α} {before after : List (ChannelLikelihood α)}
  {l : ChannelLikelihood α}

/-! ## The change of one channel -/

section

variable [ExactReals α]

/-- Log-likelihoods that are real numbers have a real sum. -/
theorem logAt_eq_real {value : ChannelLikelihood α → ℝ}
    (h : ∀ l ∈ j.channels, l.logAt p = .ok (real (value l))) :
    j.logAt p = .ok (real (j.channels.map value).sum) := by
  rw [logAt_eq_ok h, ExactReals.zero_eq, ExactReals.foldl_add, zero_add]

/-- The sums of two functions that differ at one entry differ by as much. -/
theorem sum_map_sub {β : Type} {before after : List β} {x : β} {f g : β → ℝ}
    (h : ∀ y ∈ before ++ after, g y = f y) :
    ((before ++ x :: after).map g).sum - ((before ++ x :: after).map f).sum = g x - f x := by
  have hbefore : before.map g = before.map f :=
    List.map_congr_left fun y hy => h y (List.mem_append_left _ hy)
  have hafter : after.map g = after.map f :=
    List.map_congr_left fun y hy => h y (List.mem_append_right _ hy)
  simp only [List.map_append, List.map_cons, List.sum_append, List.sum_cons, hbefore, hafter]
  ring

/-- A joint log-likelihood changes by as much as the one channel in which the assignments differ. -/
theorem exists_change (h : p.AgreeOff ch q) (hchannels : j.channels = before ++ l :: after)
    (hl : l.channel = ch) (hapart : ∀ l' ∈ before ++ after, l'.channel ≠ ch)
    {value : ChannelLikelihood α → ℝ} {changed : ℝ}
    (hp : ∀ l' ∈ j.channels, l'.logAt p = .ok (real (value l')))
    (hq : l.logAt q = .ok (real changed)) :
    ∃ x y : ℝ, j.logAt p = .ok (real x) ∧ j.logAt q = .ok (real y) ∧
      y - x = changed - value l := by
  let value' (l' : ChannelLikelihood α) : ℝ := if l'.channel = ch then changed else value l'
  have hvalue' : value' l = changed := if_pos hl
  have hkept : ∀ l' ∈ before ++ after, value' l' = value l' :=
    fun l' hl' => if_neg (hapart l' hl')
  have hmem (l' : ChannelLikelihood α) : l' ∈ j.channels ↔ l' = l ∨ l' ∈ before ++ after := by
    rw [hchannels, List.mem_append, List.mem_cons, or_left_comm, List.mem_append]
  have hq' : ∀ l' ∈ j.channels, l'.logAt q = .ok (real (value' l')) := by
    intro l' hl'
    rcases (hmem l').mp hl' with rfl | hother
    · rw [hvalue']
      exact hq
    · rw [hkept l' hother, ← (ChannelLikelihood.eq_of_agreeOff h (hapart l' hother)).2]
      exact hp l' hl'
  refine ⟨_, _, logAt_eq_real hp, logAt_eq_real hq', ?_⟩
  rw [hchannels, sum_map_sub hkept, hvalue']

end

/-- Assignments that agree but for the parameters of one channel give every likelihood of another
channel the same rate and the same log-likelihood, or the same error.  A joint log-likelihood is the
sum over the channels or the error of the first one that fails.  In exact arithmetic it changes by
as much as the channel does, if that is there once and all values are finite. -/
theorem logAt_agreeOff (h : p.AgreeOff ch q) :
    (∀ l : ChannelLikelihood α, l.channel ≠ ch → l.rate p = l.rate q ∧ l.logAt p = l.logAt q) ∧
    ∀ j : JointLikelihood α,
      (∀ value : ChannelLikelihood α → α, (∀ l ∈ j.channels, l.logAt p = .ok (value l)) →
        j.logAt p = .ok (j.channels.foldl (fun sum l => sum + value l) 0.0)) ∧
      (∀ before l after e, j.channels = before ++ l :: after →
        (∀ l' ∈ before, ∃ x, l'.logAt p = .ok x) → l.logAt p = .error e →
        j.logAt p = .error e) ∧
      ∀ [ExactReals α], ∀ before l after, j.channels = before ++ l :: after → l.channel = ch →
        (∀ l' ∈ before ++ after, l'.channel ≠ ch) →
        ∀ (value : ChannelLikelihood α → ℝ) (changed : ℝ),
          (∀ l' ∈ j.channels, l'.logAt p = .ok (real (value l'))) →
          l.logAt q = .ok (real changed) →
          ∃ x y : ℝ, j.logAt p = .ok (real x) ∧ j.logAt q = .ok (real y) ∧
            y - x = changed - value l := by
  refine ⟨fun l hl => ChannelLikelihood.eq_of_agreeOff h hl, fun j => ⟨?sum, ?error, ?change⟩⟩
  case sum =>
    intro value hvalue
    exact logAt_eq_ok hvalue
  case error =>
    intro before l after e hchannels hbefore hl
    exact logAt_eq_error hchannels hbefore hl
  case change =>
    intro _ before l after hchannels hl hapart value changed hp hq
    exact exists_change h hchannels hl hapart hp hq

/-! ## Two channels of one bin -/

open ChannelLikelihood (oneBin PositiveParameters)

/-- A lensed Gaussian pulse in one bin of each of two channels. -/
noncomputable def twoChannels : JointLikelihood Exact :=
  ⟨[oneBin, { oneBin with channel := .b }], List.cons_ne_nil _ _⟩

theorem mem_required_twoChannels {l : ChannelLikelihood Exact} (hl : l ∈ twoChannels.channels)
    {k : Key} (hk : k ∈ l.required) : k ∈ twoChannels.required :=
  mem_required.mpr ⟨l, hl, ChannelLikelihood.mem_required.mp hk⟩

/-- Positive parameters give each of the channels a real log-likelihood. -/
theorem exists_logAt_twoChannels {p : Assignment Exact} {value : Key → ℝ}
    (hpos : ∀ k, 0 < value k)
    (hp : ∀ k ∈ twoChannels.required, p[k.text]? = some (.real (value k)))
    {l : ChannelLikelihood Exact} (hl : l ∈ twoChannels.channels) :
    ∃ x : ℝ, l.logAt p = .ok (.real x) := by
  have hreal (k : Key) : Exact.IsPositive (.real (value k)) := Exact.isPositive_real (hpos k)
  have hparameters : PositiveParameters l.model l.channel fun k => .real (value k) :=
    ⟨hreal _, fun i _ => ⟨_, rfl⟩, fun q i _ _ => hreal _, fun _ => ⟨_, rfl⟩,
      fun _ => ⟨_, (hpos _).le, rfl⟩⟩
  have hread : ∀ k ∈ l.required, p[k.text]? = some (.real (value k)) :=
    fun k hk => hp k (mem_required_twoChannels hl hk)
  obtain ⟨hmodel, htimes, hcounts⟩ : l.model = ⟨true, [⟨.gaussian, none⟩], none⟩ ∧
      l.times = #[0].map Exact.real ∧ l.counts = #[1].map Exact.real := by
    rcases List.mem_pair.mp hl with rfl | rfl <;> simp [oneBin]
  have hresiduals : ∀ x ∈ l.model.pulses, x.residual = none := by
    rw [hmodel]
    decide
  obtain ⟨-, x, -, -, -, -, hx⟩ := ChannelLikelihood.exists_logAt_real hresiduals hparameters hread
    htimes hcounts (by norm_num)
  exact ⟨x, hx⟩

/-- The pulse starts later in the first channel, and nothing changes in the second. -/
theorem logAt_agreeOff_GL :
    ∃ p q : Assignment Exact, p["start_1_a"]? = some (.real 1) ∧ q["start_1_a"]? = some (.real 2) ∧
      ChannelLikelihood.logAt { oneBin with channel := .b } p =
        ChannelLikelihood.logAt { oneBin with channel := .b } q ∧
      ∃ x y u v : ℝ, oneBin.logAt p = .ok (.real x) ∧ oneBin.logAt q = .ok (.real y) ∧
        twoChannels.logAt p = .ok (.real u) ∧ twoChannels.logAt q = .ok (.real v) ∧
        v - u = y - x := by
  let start : Key := .shape .start 1 .a
  let value (k : Key) : ℝ := if k = start then 2 else 1
  let p : Assignment Exact := .ofPairs (twoChannels.required.map fun k => (k.text, .real 1))
  let q : Assignment Exact := p.insert start.text (.real 2)
  have hp : ∀ k ∈ twoChannels.required, p[k.text]? = some (.real 1) :=
    fun k hk => Assignment.getElem?_ofPairs_text (fun _ => Exact.real 1) hk
  have hq : ∀ k ∈ twoChannels.required, q[k.text]? = some (.real (value k)) := by
    intro k hk
    rw [Assignment.getElem?_insert]
    by_cases hstart : k = start
    · rw [hstart, if_pos rfl]
      exact congrArg (some ∘ Exact.real) (if_pos rfl).symm
    · rw [if_neg fun htext => hstart (Key.text_injective htext).symm, hp k hk]
      exact congrArg (some ∘ Exact.real) (if_neg hstart).symm
  have hpos (k : Key) : 0 < value k := by
    by_cases hstart : k = start <;> simp [value, hstart]
  have hagree : p.AgreeOff .a q := Assignment.agreeOff_insert (by rintro i ⟨⟩; decide) rfl _
  have hfirst : oneBin ∈ twoChannels.channels := List.mem_cons_self
  have hreal : ∀ l : ChannelLikelihood Exact, ∃ x : ℝ,
      l ∈ twoChannels.channels → l.logAt p = .ok (.real x) := by
    intro l
    by_cases hl : l ∈ twoChannels.channels
    · obtain ⟨x, hx⟩ := exists_logAt_twoChannels (fun _ => one_pos) hp hl
      exact ⟨x, fun _ => hx⟩
    · exact ⟨0, fun h => absurd h hl⟩
  choose x hx using hreal
  obtain ⟨y, hy⟩ := exists_logAt_twoChannels hpos hq hfirst
  obtain ⟨hothers, hjoint⟩ := logAt_agreeOff hagree
  obtain ⟨u, v, hu, hv, hchange⟩ := (hjoint twoChannels).2.2 [] oneBin
    [{ oneBin with channel := .b }] rfl rfl (by simp) x y (fun l hl => hx l hl) hy
  have hname : start.text = "start_1_a" := by decide
  refine ⟨p, q, ?_, ?_, (hothers { oneBin with channel := .b } (by decide)).2, x oneBin, y, u, v,
    hx oneBin hfirst, hy, hu, hv, hchange⟩
  · rw [← hname]
    exact hp start (by decide)
  · rw [← hname, Assignment.getElem?_insert, if_pos rfl]

end JointLikelihood

end PulseFit
