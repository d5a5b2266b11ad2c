import Mathlib.Data.Fin.Tuple.Sort
import PulseFit.Proofs.Model.Renumbering
import PulseFit.Proofs.Prior.Constraints
import PulseFit.Proofs.Prior.Sampling
import PulseFit.Proofs.Scalar.Reals

/-!
# Proofs.Prior.Renumbering — of all ways to number the pulses one keeps the order

Pulses that are alike may be numbered in any way without changing the model.  The prior accepts one
of these ways if the starts are different and lie in the window: that in which the starts ascend.
Only neighbours are compared, and never more than the width of the window, but this makes all starts
ascend, and starts that ascend in the window are never too far apart (`satisfied_renumber_iff`).
-/

namespace PulseFit.Prior

variable {m : Model} {ch : Channel} {b : Bounds Exact} {r : Prior Exact}

/-! ## Ascending tuples -/

/-- A tuple ascends if every entry is at most the next one. -/
theorem monotone_iff_le_next {n : Nat} {f : Fin n → ℝ} :
    Monotone f ↔ ∀ (i : Nat) (h : i + 1 < n), f ⟨i, Nat.lt_of_succ_lt h⟩ ≤ f ⟨i + 1, h⟩ := by
  cases n with
  | zero => exact ⟨fun _ i h => absurd h (Nat.not_lt_zero _), fun _ i => i.elim0⟩
  | succ n =>
    rw [Fin.monotone_iff_le_succ]
    exact ⟨fun h i hi => h ⟨i, Nat.lt_of_succ_lt_succ hi⟩,
      fun h i => h i (Nat.succ_lt_succ i.isLt)⟩

/-- Different numbers are sorted in one way. -/
theorem existsUnique_sort {n : Nat} {f : Fin n → ℝ} (hf : Function.Injective f) :
    ∃! π : Equiv.Perm (Fin n), Monotone (f ∘ π.symm) := by
  refine ⟨(Tuple.sort f).symm, Tuple.monotone_sort f, fun π hπ => ?_⟩
  have hsorted : f ∘ π.symm = f ∘ Tuple.sort f := Tuple.unique_monotone hπ (Tuple.monotone_sort f)
  have hsymm : π.symm = Tuple.sort f := Equiv.ext fun i => hf (congrFun hsorted i)
  rw [← hsymm, Equiv.symm_symm]

/-! ## The order of a prior -/

theorem orderedPulses_of_alike {s : PulseShape} (h : ∀ x ∈ m.pulses, x = ⟨s, none⟩)
    {q : ShapeQuantity} (hq : q ≠ .start) : m.orderedPulses q = [] := by
  have hresiduals : m.residualChain = [] := by
    rw [Model.residualChain, List.map_eq_nil_iff, List.filter_eq_nil_iff]
    rintro ⟨x, i⟩ hx
    obtain ⟨j, -, hj⟩ := Model.mem_numbered.mp hx
    rw [h x (List.mem_of_getElem? hj)]
    exact Bool.false_ne_true
  cases q
  case start => exact absurd rfl hq
  case residualBegin => exact hresiduals
  all_goals rfl

/-- An assignment keeps the order exactly if no time comes before its predecessor in the order, nor
later than it by more than the width of the window. -/
theorem satisfied_iff (hr : build? m [ch] b = some (.ok r)) {p : Assignment Exact}
    {value : Key → Exact} (hp : ∀ k ∈ m.keys ch, p[k.text]? = some (value k)) :
    r.satisfied p = .ok true ↔ ∀ q i j, (i, j) ∈ Chain.pairs (m.orderedPulses q) →
      0.0 ≤ value (.shape q j ch) - value (.shape q i ch) ∧
        value (.shape q j ch) - value (.shape q i ch) ≤ b.width := by
  rw [← modelKeys_singleton] at hp
  rw [satisfied_eq hr hp, Except.ok.injEq, ordered_iff hr value]
  simp only [List.mem_singleton, forall_eq]

/-- Pulses that are alike keep the order exactly if their starts ascend with their new numbers. -/
theorem satisfied_renumber_iff {s : PulseShape} (hpulses : ∀ x ∈ m.pulses, x = ⟨s, none⟩)
    {lo hi : ℝ} (hwindow : b.window = ⟨.real lo, .real hi⟩) (hr : build? m [ch] b = some (.ok r))
    {p : Assignment Exact} (hp : ∀ k ∈ m.keys ch, k.text ∈ p) {t : Fin m.size → ℝ}
    (hstart : ∀ i : Fin m.size, p[(Key.shape .start (i + 1) ch).text]? = some (.real (t i)))
    (ht : ∀ i, lo ≤ t i ∧ t i ≤ hi) (π : Equiv.Perm (Fin m.size)) :
    r.satisfied (p.renumber π) = .ok true ↔ Monotone (t ∘ π.symm) := by
  let value (k : Key) : Exact := p.getD (k.renumber (renumber π).symm).text 0.0
  have hvalue : ∀ k ∈ m.keys ch, (p.renumber π)[k.text]? = some (value k) := fun k hk =>
    Assignment.getElem?_renumber_of_mem_keys π rfl (Model.indices_perm_of_alike hpulses π) hp 0.0 hk
  have htime (i : Nat) (hi : i < m.size) :
      value (.shape .start (i + 1) ch) = .real (t (π.symm ⟨i, hi⟩)) := by
    have hkey : (Key.shape .start (i + 1) ch).renumber (renumber π).symm =
        .shape .start (π.symm ⟨i, hi⟩ + 1) ch :=
      congrArg (Key.shape .start · ch) (renumber_symm_succ π ⟨i, hi⟩)
    show p.getD ((Key.shape .start (i + 1) ch).renumber (renumber π).symm).text 0.0 = _
    rw [hkey, Std.ExtTreeMap.getD_eq_getD_getElem?, hstart]
    rfl
  have hwidth : b.width = .real (hi - lo) := by
    rw [Bounds.width, hwindow, Exact.real_sub_real]
  rw [satisfied_iff hr hvalue, monotone_iff_le_next]
  constructor
  · intro h i hi
    have hstep := (h .start (i + 1) (i + 2) (Chain.mem_pairs_range'.mpr ⟨by omega, hi, rfl⟩)).1
    rw [htime (i + 1) hi, htime i (by omega), Exact.zero_eq, Exact.real_sub_real,
      Exact.real_le_real] at hstep
    exact sub_nonneg.mp hstep
  · intro h q i j hpair
    by_cases hq : q = .start
    · subst hq
      obtain ⟨htwo, hj, rfl⟩ := Chain.mem_pairs_range'.mp hpair
      obtain ⟨i, rfl⟩ : ∃ i, j = i + 2 := ⟨j - 2, by omega⟩
      have hle := h i hj
      -- the later start is at most the end of the window, the earlier one at least its begin
      have hlo := (ht (π.symm ⟨i, by omega⟩)).1
      have hhi := (ht (π.symm ⟨i + 1, hj⟩)).2
      rw [show i + 2 - 1 = i + 1 from rfl, htime (i + 1) hj, htime i (by omega), hwidth,
        Exact.zero_eq, Exact.real_sub_real, Exact.real_le_real, Exact.real_le_real]
      exact ⟨sub_nonneg.mpr hle, sub_le_sub hhi hlo⟩
    · rw [orderedPulses_of_alike hpulses hq] at hpair
      cases hpair

/-- Pulses that are alike and start at different times in the window can be numbered in one way only
that keeps the order of their prior. -/
theorem existsUnique_renumber {s : PulseShape} (hpulses : ∀ x ∈ m.pulses, x = ⟨s, none⟩)
    (ch : Channel) (hb : b.validate = .ok ()) {p : Assignment Exact}
    (hp : ∀ k ∈ m.keys ch, k.text ∈ p) {start : Fin m.size → Exact}
    (hstart : ∀ i : Fin m.size, p[(Key.shape .start (i + 1) ch).text]? = some (start i))
    (hdistinct : Function.Injective start)
    (hwindow : ∀ i, b.window.lo ≤ start i ∧ start i ≤ b.window.hi) :
    ∃ r, build? m [ch] b = some (.ok r) ∧
      ∃! π : Equiv.Perm (Fin m.size), r.satisfied (p.renumber π) = .ok true := by
  obtain ⟨r, hr⟩ := exists_build? hb m [ch]
  obtain ⟨lo, hi, -, hbounds⟩ := exists_window hb
  refine ⟨r, hr, ?_⟩
  have hreal (i : Fin m.size) : ∃ t : ℝ, start i = .real t ∧ lo ≤ t ∧ t ≤ hi := by
    obtain ⟨hlo, hhi⟩ := hwindow i
    rw [hbounds] at hlo hhi
    exact Exact.exists_real_of_le hlo hhi
  choose t ht hrange using hreal
  have hinjective : Function.Injective t := fun i j hij => hdistinct (by rw [ht, ht, hij])
  have hsatisfied := satisfied_renumber_iff hpulses hbounds hr hp
    (fun i => (hstart i).trans (congrArg some (ht i))) hrange
  simp only [hsatisfied]
  exact existsUnique_sort hinjective

/-- Starts that descend from ten. -/
noncomputable def descending : Key → Exact
  | .shape .start i _ => .real (10 - i)
  | _ => .real 1

/-- Of the ways to number three pulses that start in descending order one is accepted. -/
theorem existsUnique_renumber_FFFL :
    ∃ r, build? ⟨true, [⟨.fred, none⟩, ⟨.fred, none⟩, ⟨.fred, none⟩], none⟩ [.b]
        tenBounds = some (.ok r) ∧
      ∃! π : Equiv.Perm (Fin 3), r.satisfied (Assignment.renumber π (.ofPairs
        ((Model.keys ⟨true, [⟨.fred, none⟩, ⟨.fred, none⟩, ⟨.fred, none⟩], none⟩ .b).map
          fun k => (k.text, descending k)))) = .ok true := by
  have hvalue {k : Key} (hk : k ∈ Model.keys
      ⟨true, [⟨.fred, none⟩, ⟨.fred, none⟩, ⟨.fred, none⟩], none⟩ .b) :=
    Assignment.getElem?_ofPairs_text descending hk
  refine existsUnique_renumber (s := .fred) (by simp) .b validate_tenBounds (fun k hk => ?_)
    (fun i => hvalue (Model.start_mem_keys (succ_mem_range i))) (fun i j hij => ?_) fun i => ?_
  · exact Std.ExtTreeMap.mem_iff_isSome_getElem?.mpr (by rw [hvalue hk]; rfl)
  · have hij : (10 : ℝ) - (i + 1 : ℕ) = 10 - (j + 1 : ℕ) := Exact.real.inj hij
    refine Fin.ext ?_
    have hcast : ((i + 1 : ℕ) : ℝ) = (j + 1 : ℕ) := by linarith
    have hnat : (i : ℕ) + 1 = j + 1 := by exact_mod_cast hcast
    omega
  · have hi : ((i + 1 : ℕ) : ℝ) ≤ 3 := by exact_mod_cast i.isLt
    show (0 : ℝ) ≤ 10 - (i + 1 : ℕ) ∧ (10 : ℝ) - (i + 1 : ℕ) ≤ 10
    have hnonneg : (0 : ℝ) ≤ (i + 1 : ℕ) := Nat.cast_nonneg _
    constructor <;> linarith

end PulseFit.Prior
