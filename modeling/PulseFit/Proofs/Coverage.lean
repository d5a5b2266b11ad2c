import PulseFit.Posterior
import PulseFit.Proofs.Assignment
import PulseFit.Proofs.Likelihood.Joint
import PulseFit.Proofs.Prior.Build

/-!
# Proofs.Coverage — when a prior covers a joint likelihood

A prior over some channels and a joint likelihood over others fit together exactly if the prior has
all channels of the likelihood.  The background of a channel stands for it: no other channel has
that parameter, so none can make up for a channel that the prior lacks.  Where they fit, no position
leaves the likelihood without a parameter.
-/

namespace PulseFit

variable {α : Type}

namespace Posterior

variable {likelihood : Likelihood α} {prior : Prior α}

/-- Either the prior has all parameters of the likelihood, or one that it has not is named. -/
theorem ofParts_cases (likelihood : Likelihood α) (prior : Prior α) :
    (∃ t, ofParts likelihood prior = .ok t ∧ t.likelihood = likelihood ∧ t.prior = prior) ∨
      ∃ s ∈ likelihood.names, s ∉ prior.names ∧
        ofParts likelihood prior = .error (.unknownPrior s) := by
  rw [ofParts]
  split
  · next s h =>
    have hs : s ∉ prior.names := by simpa using List.find?_some h
    exact .inr ⟨s, List.mem_of_find?_eq_some h, hs, rfl⟩
  · exact .inl ⟨_, rfl, rfl, rfl⟩

theorem parts_of_ofParts {t : Posterior α} (h : ofParts likelihood prior = .ok t) :
    t.likelihood = likelihood ∧ t.prior = prior := by
  obtain ⟨t', ht', hparts⟩ | ⟨s, -, -, hs⟩ := ofParts_cases likelihood prior
  · obtain rfl := Except.ok.inj (h.symm.trans ht')
    exact hparts
  · rw [h] at hs
    cases hs

theorem exists_ofParts_iff :
    (∃ t, ofParts likelihood prior = .ok t) ↔ ∀ s ∈ likelihood.names, s ∈ prior.names := by
  constructor
  · rintro ⟨t, ht⟩
    obtain ⟨rfl, rfl⟩ := parts_of_ofParts ht
    exact t.covered
  · intro h
    obtain ⟨t, ht, -⟩ | ⟨s, hs, hn, -⟩ := ofParts_cases likelihood prior
    · exact ⟨t, ht⟩
    · exact absurd (h s hs) hn

theorem parameters?_eq_some {t : Posterior α} {position : List α}
    (h : position.length = t.prior.size) :
    t.parameters? position = some (t.prior.assign position) := if_pos h

end Posterior

namespace Prior

/-- An assignment of as many values as entries has exactly the names of the entries. -/
theorem mem_assign {r : Prior α} {values : List α} (h : values.length = r.size) {s : String} :
    s ∈ r.assign values ↔ s ∈ r.names := by
  have hlength : r.names.length = values.length := by rw [h, names, List.length_map, size]
  rw [assign, Assignment.mem_ofPairs, List.map_fst_zip (Nat.le_of_eq hlength)]

variable [Scalar α] {m : Model} {channels : List Channel} {b : Bounds α} {r : Prior α}

theorem mem_names_of_build? (h : build? m channels b = some (.ok r)) {s : String} :
    s ∈ r.names ↔ ∃ ch ∈ channels, s ∈ (m.keys ch).map Key.text := by
  rw [names_of_build? h]
  simp only [List.mem_map, mem_modelKeys]
  constructor
  · rintro ⟨k, ⟨ch, hch, hk⟩, rfl⟩
    exact ⟨ch, hch, k, hk, rfl⟩
  · rintro ⟨ch, hch, k, hk, rfl⟩
    exact ⟨k, ⟨ch, hch, hk⟩, rfl⟩

theorem nodup_names_of_build? (h : build? m channels b = some (.ok r)) (hch : channels.Nodup) :
    r.names.Nodup := by
  rw [names_of_build? h]
  exact (nodup_modelKeys hch).map fun _ _ => Key.text_injective

/-- The background of a channel is a parameter of no other. -/
theorem background_mem_names_iff (h : build? m channels b = some (.ok r)) {ch : Channel} :
    (Key.background ch).text ∈ r.names ↔ ch ∈ channels := by
  rw [mem_names_of_build? h]
  constructor
  · rintro ⟨ch', hch', hs⟩
    obtain ⟨k, hk, htext⟩ := List.mem_map.mp hs
    obtain rfl := Key.text_injective htext
    obtain rfl : ch = ch' := Option.some.inj (Model.channel?_of_mem_keys hk nofun)
    exact hch'
  · intro hch
    exact ⟨ch, hch, List.mem_map_of_mem (m.background_mem_keys ch)⟩

end Prior

variable [Scalar α]

/-- A prior has all parameters of a joint likelihood exactly if it has all of its channels. -/
theorem covers_iff {m : Model} {channels : List Channel} {b : Bounds α} {r : Prior α}
    (h : Prior.build? m channels b = some (.ok r)) {j : JointLikelihood α}
    (hj : ∀ l ∈ j.channels, l.model = m) :
    (∀ s ∈ j.toLikelihood.names, s ∈ r.names) ↔ ∀ l ∈ j.channels, l.channel ∈ channels := by
  constructor
  · intro hcover l hl
    rw [← Prior.background_mem_names_iff h]
    have hbackground := List.mem_map_of_mem (f := Key.text) (l.model.background_mem_keys l.channel)
    exact hcover _ (JointLikelihood.mem_names.mpr ⟨l, hl, hbackground⟩)
  · intro hchannels s hs
    obtain ⟨l, hl, hs⟩ := JointLikelihood.mem_names.mp hs
    rw [hj l hl] at hs
    exact (Prior.mem_names_of_build? h).mpr ⟨l.channel, hchannels l hl, hs⟩

/-- A prior over channels and a joint likelihood over channels, both of one model: what they name,
when they fit together, and that the likelihood then finds all its parameters at every position. -/
theorem joint_hand_off [Scalar.LawfulOrder α] [Scalar.LawfulLog α] (m : Model)
    (channels : List Channel) {b : Bounds α} (hb : b.validate = .ok ()) (j : JointLikelihood α)
    (hj : ∀ l ∈ j.channels, l.model = m) :
    ∃ r, Prior.build? m channels b = some (.ok r) ∧
      (∀ s, s ∈ r.names ↔ ∃ ch ∈ channels, s ∈ (m.keys ch).map Key.text) ∧
      (channels.Nodup → r.names.Nodup) ∧
      j.toLikelihood.names.Nodup ∧
      (∀ s, s ∈ j.toLikelihood.names ↔
        ∃ l ∈ j.channels, s ∈ (m.keys l.channel).map Key.text) ∧
      ((∃ t, Posterior.ofParts j.toLikelihood r = .ok t) ↔
        ∀ l ∈ j.channels, l.channel ∈ channels) ∧
      ((¬ ∀ l ∈ j.channels, l.channel ∈ channels) →
        ∃ s, Posterior.ofParts j.toLikelihood r = .error (.unknownPrior s)) ∧
      ∀ t, Posterior.ofParts j.toLikelihood r = .ok t → ∀ values : List α,
        values.length = r.size → ∃ p, t.parameters? values = some p ∧
          ∀ s, t.likelihood.logAt p ≠ .error (.missingParameter s) := by
  obtain ⟨r, hr⟩ := Prior.exists_build? hb m channels
  have hcovers := covers_iff hr hj
  refine ⟨r, hr, fun s => Prior.mem_names_of_build? hr, Prior.nodup_names_of_build? hr,
    j.nodup_names, fun s => ?_, Posterior.exists_ofParts_iff.trans hcovers, fun h => ?_,
    fun t ht values hlength => ?_⟩
  · rw [JointLikelihood.mem_names]
    exact exists_congr fun l => and_congr_right fun hl => by rw [hj l hl]
  · obtain ⟨t, ht, -⟩ | ⟨s, -, -, hs⟩ := Posterior.ofParts_cases j.toLikelihood r
    · exact absurd (hcovers.mp (Posterior.exists_ofParts_iff.mp ⟨t, ht⟩)) h
    · exact ⟨s, hs⟩
  · obtain ⟨hlikelihood, rfl⟩ := Posterior.parts_of_ofParts ht
    refine ⟨_, Posterior.parameters?_eq_some hlength, fun s => ?_⟩
    rw [hlikelihood]
    refine JointLikelihood.logAt_ne_missingParameter (fun name hname => ?_) s
    rw [Prior.mem_assign hlength]
    exact t.covered name (hlikelihood ▸ hname)

/-- A prior over two channels, the second given twice, for a likelihood over the second alone. -/
theorem joint_hand_off_GL :
    ∃ r, Prior.build? ⟨true, [⟨.gaussian, none⟩], none⟩ [.a, .b, .b] tenBounds = some (.ok r) ∧
      ∃ t, Posterior.ofParts
        (JointLikelihood.toLikelihood
          ⟨[⟨⟨true, [⟨.gaussian, none⟩], none⟩, .b, #[Exact.real 1], #[Exact.real 3], rfl⟩],
            List.cons_ne_nil _ _⟩) r = .ok t := by
  obtain ⟨r, hr, -, -, -, -, hok, -⟩ := joint_hand_off ⟨true, [⟨.gaussian, none⟩], none⟩
    [.a, .b, .b] validate_tenBounds
    ⟨[⟨⟨true, [⟨.gaussian, none⟩], none⟩, .b, #[Exact.real 1], #[Exact.real 3], rfl⟩],
      List.cons_ne_nil _ _⟩ (by simp)
  exact ⟨r, hr, hok.mpr (by simp)⟩

end PulseFit
