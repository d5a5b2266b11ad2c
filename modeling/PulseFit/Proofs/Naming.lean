import PulseFit.Proofs.Likelihood.Channel
import PulseFit.Proofs.Prior.Build

/-!
# Proofs.Naming — one channel, three lists of names

The parameters of a model in a channel are listed three times: by the model, quantity by quantity;
by the likelihood, pulse by pulse; by the prior, entry by entry.  The lists hold the same names, and
a name leads to the distribution of the quantity that it says.
-/

namespace PulseFit

variable {α : Type} [Scalar α]

/-- The names of a prior are those of its model, and each leads to the distribution of its
quantity. -/
theorem Prior.get?_of_mem_names {m : Model} {ch : Channel} {b : Bounds α} {r : Prior α}
    (h : build? m [ch] b = some (.ok r)) {s : String} (hs : s ∈ r.names) :
    ∃ k d, k ∈ m.keys ch ∧ k.text = s ∧ r.get? s = some d ∧ b.marginal? k.quantity = some d := by
  rw [names_of_build? h] at hs
  obtain ⟨k, hk, rfl⟩ := List.mem_map.mp hs
  obtain ⟨d, hget, hd⟩ := get?_of_build? h hk
  exact ⟨k, d, modelKeys_singleton m ch ▸ hk, rfl, hget, hd⟩

/-- In one channel the model, the likelihood and the prior name the same parameters, none twice.
The model may be any row of pulses; to read a name back its pulses have to be counted by a machine
word, as those of every model in memory are. -/
theorem one_channel_names [Scalar.LawfulOrder α] [Scalar.LawfulLog α] (m : Model) (ch : Channel)
    {b : Bounds α} (hb : b.validate = .ok ()) :
    ((m.keys ch).map Key.text).Nodup ∧
      (∀ times counts : Array α, counts.size = times.size →
        ∃ l, ChannelLikelihood.ofCounts times counts m ch = .ok l ∧
          l.toLikelihood.names.Perm ((m.keys ch).map Key.text)) ∧
      ∃ r, Prior.build? m [ch] b = some (.ok r) ∧ r.names = (m.keys ch).map Key.text ∧
        ∀ s ∈ r.names, ∃ k d, k.text = s ∧ (m.size < Key.pulseBound → Key.parse s = .ok k) ∧
          r.get? s = some d ∧ b.marginal? k.quantity = some d := by
  refine ⟨m.nodup_names ch, fun times counts hsize => ?_, ?_⟩
  · refine ⟨⟨m, ch, times, counts, hsize⟩, dif_pos hsize, ?_⟩
    exact (ChannelLikelihood.required_perm _).map Key.text
  · obtain ⟨r, hr⟩ := Prior.exists_build? hb m [ch]
    refine ⟨r, hr, ?_, fun s hs => ?_⟩
    · rw [Prior.names_of_build? hr, Prior.modelKeys_singleton]
    · obtain ⟨k, d, hk, rfl, hget, hd⟩ := Prior.get?_of_mem_names hr hs
      exact ⟨k, d, rfl, fun hm => Key.parse_text (Model.numbered_of_mem_keys hm hk), hget, hd⟩

/-- A pulse with a residual and a convolved pulse, lensed, with the usual bounds of a window. -/
theorem one_channel_names_FsCL :
    ∃ r, Prior.build? ⟨true, [⟨.fred, some .sineGaussian⟩, ⟨.convolution, none⟩], none⟩ [.b]
        tenBounds = some (.ok r) ∧
      r.names = ["time_delay", "magnification_ratio", "background_b", "start_1_b", "scale_1_b",
        "tau_1_b", "xi_1_b", "start_2_b", "scale_2_b", "sigma_2_b", "tau_2_b", "sg_A_1_b",
        "res_begin_1_b", "sg_lambda_1_b", "sg_omega_1_b", "sg_phi_1_b"] := by
  obtain ⟨-, -, r, hr, hnames, -⟩ := one_channel_names
    ⟨true, [⟨.fred, some .sineGaussian⟩, ⟨.convolution, none⟩], none⟩ .b validate_tenBounds
  exact ⟨r, hr, hnames⟩

end PulseFit
