import PulseFit.Likelihood.Joint
import PulseFit.Proofs.Likelihood.Channel

/-!
# Proofs.Likelihood.Joint — the parameters that a joint likelihood reads

A joint likelihood reads what one of its channels reads, and lists it once (`nodup_required`).  It
lacks a parameter only where one of its channels does.  Its value is the sum over its channels
(`logAt_eq_ok`), or else the error of the first that has none (`logAt_eq_error`).
-/

namespace PulseFit

theorem nodup_eraseDups {α : Type} [BEq α] [LawfulBEq α] (xs : List α) : xs.eraseDups.Nodup := by
  match xs with
  | [] => exact List.nodup_nil
  | x :: xs =>
    have hx : x ∉ (xs.filter fun y => !y == x).eraseDups := by simp
    rw [List.eraseDups_cons]
    exact List.nodup_cons.mpr ⟨hx, nodup_eraseDups _⟩
termination_by xs.length
decreasing_by exact Nat.lt_succ_of_le (List.length_filter_le _ _)

namespace JointLikelihood

variable {α : Type} {j : JointLikelihood α}

theorem nodup_required (j : JointLikelihood α) : j.required.Nodup := nodup_eraseDups _

theorem mem_required {k : Key} :
    k ∈ j.required ↔ ∃ l ∈ j.channels, k ∈ l.model.keys l.channel := by
  rw [required, List.mem_eraseDups, List.mem_flatMap]
  simp only [ChannelLikelihood.mem_required]

theorem nodup_names [Scalar α] (j : JointLikelihood α) : j.toLikelihood.names.Nodup :=
  j.nodup_required.map fun _ _ => Key.text_injective

theorem mem_names [Scalar α] {s : String} :
    s ∈ j.toLikelihood.names ↔ ∃ l ∈ j.channels, s ∈ (l.model.keys l.channel).map Key.text := by
  simp only [toLikelihood, List.mem_map, mem_required]
  constructor
  · rintro ⟨k, ⟨l, hl, hk⟩, rfl⟩
    exact ⟨l, hl, k, hk, rfl⟩
  · rintro ⟨l, hl, k, hk, rfl⟩
    exact ⟨k, ⟨l, hl, hk⟩, rfl⟩

/-- No parameter is missing where all that are read are there. -/
theorem logAt_ne_missingParameter [Scalar α] {p : Assignment α}
    (h : ∀ s ∈ j.toLikelihood.names, s ∈ p) (name : String) :
    j.logAt p ≠ .error (.missingParameter name) := by
  intro hj
  obtain ⟨l, hl, acc, hstep⟩ := exists_of_foldlM_eq_error hj
  have hread : ∀ k ∈ l.required, k.text ∈ p := by
    intro k hk
    have hk := ChannelLikelihood.mem_required.mp hk
    exact h _ (mem_names.mpr ⟨l, hl, List.mem_map_of_mem hk⟩)
  cases hlog : l.logAt p with
  | ok x =>
    rw [hlog] at hstep
    cases hstep
  | error e =>
    rw [hlog] at hstep
    cases hstep
    exact ChannelLikelihood.logAt_ne_missingParameter hread name hlog

/-! ## The sum over the channels -/

/-- Where every channel has a log-likelihood, these are added. -/
theorem logAt_eq_ok [Scalar α] {p : Assignment α} {value : ChannelLikelihood α → α}
    (h : ∀ l ∈ j.channels, l.logAt p = .ok (value l)) :
    j.logAt p = .ok (j.channels.foldl (fun sum l => sum + value l) 0.0) := by
  unfold logAt
  refine foldlM_eq_pure_foldl (fun l hl sum => ?_) 0.0
  rw [h l hl]
  rfl

/-- Otherwise the error is that of the first channel that has none. -/
theorem logAt_eq_error [Scalar α] {p : Assignment α} {before after : List (ChannelLikelihood α)}
    {l : ChannelLikelihood α} {e : LikelihoodError α}
    (hchannels : j.channels = before ++ l :: after)
    (hbefore : ∀ l' ∈ before, ∃ x, l'.logAt p = .ok x) (hl : l.logAt p = .error e) :
    j.logAt p = .error e := by
  unfold logAt
  rw [hchannels]
  refine foldlM_eq_error (fun l' hl' sum => ?_) (fun sum => ?_) 0.0
  · obtain ⟨x, hx⟩ := hbefore l' hl'
    exact ⟨sum + x, by rw [hx]; rfl⟩
  · rw [hl]
    rfl

end JointLikelihood

end PulseFit
