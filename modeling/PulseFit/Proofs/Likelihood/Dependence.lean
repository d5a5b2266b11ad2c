import PulseFit.Proofs.Likelihood.Channel

/-!
# Proofs.Likelihood.Dependence — a likelihood depends on what it reads

Assignments that agree on the parameters which a likelihood lists give it the same sum, broken off
at the same place if at all (`sum_congr`), and so the same rate and log-likelihood.  The proof goes
up from one look-up to the whole summation, whatever has been summed before.
-/

namespace PulseFit.ChannelLikelihood

variable {α : Type} {l : ChannelLikelihood α} {p q : Assignment α}

theorem lookup_congr {k : Key} (h : p[k.text]? = q[k.text]?) : lookup p k = lookup q k := by
  unfold lookup
  rw [h]

theorem load_congr {keys : List Key} (h : ∀ k ∈ keys, p[k.text]? = q[k.text]?)
    (buffer : List α) : load p keys buffer = load q keys buffer := by
  induction keys generalizing buffer with
  | nil => cases buffer <;> rfl
  | cons k keys ih =>
    cases buffer with
    | nil => rfl
    | cons y buffer =>
      have hrest := ih (fun k hk => h k (List.mem_cons_of_mem _ hk)) buffer
      rw [load, load, lookup_congr (h k List.mem_cons_self), hrest]

theorem lens?_congr (h : ∀ k ∈ l.required, p[k.text]? = q[k.text]?) : l.lens? p = l.lens? q := by
  unfold lens?
  by_cases hl : l.model.lensed = true
  · have hk (quantity : LensQuantity) : lookup p (.lens quantity) = lookup q (.lens quantity) :=
      lookup_congr (h _ (mem_required.mpr (Model.mem_keys.mpr (.inl ⟨hl, rfl⟩))))
    rw [if_pos hl, if_pos hl, hk, hk]
  · rw [if_neg hl, if_neg hl]

variable [Scalar α]

/-- One term is added in the same way. -/
theorem sumTerm_congr {term : Component × Nat}
    (h : ∀ k ∈ componentKeys l.channel term, p[k.text]? = q[k.text]?) (lens : Option (Lens α))
    (s : Summation α) : l.sumTerm p lens s term = l.sumTerm q lens s term := by
  unfold sumTerm
  rw [load_congr h]

/-- All terms are added in the same way. -/
theorem foldlM_sumTerm_congr {terms : List (Component × Nat)}
    (h : ∀ term ∈ terms, ∀ k ∈ componentKeys l.channel term, p[k.text]? = q[k.text]?)
    (lens : Option (Lens α)) (s : Summation α) :
    terms.foldlM (l.sumTerm p lens) s = terms.foldlM (l.sumTerm q lens) s := by
  induction terms generalizing s with
  | nil => rfl
  | cons term terms ih =>
    have hrest := ih fun t ht => h t (List.mem_cons_of_mem _ ht)
    rw [List.foldlM_cons, List.foldlM_cons, sumTerm_congr (h term List.mem_cons_self)]
    simp only [hrest]

/-- Assignments that agree on what is read give the same sum or break off in the same place. -/
theorem sum_congr (h : ∀ k ∈ l.required, p[k.text]? = q[k.text]?) : l.sum p = l.sum q := by
  have hbackground := h _ (mem_required.mpr (l.model.background_mem_keys l.channel))
  have hterms : ∀ lens s, l.model.components.foldlM (l.sumTerm p lens) s =
      l.model.components.foldlM (l.sumTerm q lens) s :=
    foldlM_sumTerm_congr fun _ hterm k hk => h k (mem_required_of_mem_componentKeys hterm hk)
  unfold ChannelLikelihood.sum
  rw [lens?_congr h, lookup_congr hbackground]
  simp only [hterms]

theorem rate_congr (h : ∀ k ∈ l.required, p[k.text]? = q[k.text]?) : l.rate p = l.rate q := by
  unfold rate
  rw [sum_congr h]

theorem logAt_congr (h : ∀ k ∈ l.required, p[k.text]? = q[k.text]?) : l.logAt p = l.logAt q := by
  unfold logAt
  rw [rate_congr h]

end PulseFit.ChannelLikelihood
