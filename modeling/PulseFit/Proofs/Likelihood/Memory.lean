import PulseFit.Likelihood.Memory
import PulseFit.Proofs.Assignment
import PulseFit.Proofs.Likelihood.Outcome
import PulseFit.Proofs.Likelihood.Dependence

/-!
# Proofs.Likelihood.Memory — an evaluation forgets what it finds

What a computation in memory gives, and what it leaves of the rate, depends on the rate that it
finds and not on the buffers of convolutions (`Follows`).  The steps of an evaluation follow those
of a summation that works in no memory, also to the place where it breaks off, and as the array is
cleared first, nothing is left of what stood in it (`observed_rateIn`).  So it makes no difference
what was evaluated before, and whether it failed half way (`evaluate_forgets`).
-/

namespace PulseFit

open MonadExcept (ofExcept)

/-- The buffers that are kept have no part in what a component adds. -/
theorem Rate.fst_addComponentIn? {α : Type} [Scalar α] (kept : Option (Workspace α))
    (c : Component) (values : List α) (times : Array α) (factor : α) (out : Array α) :
    (addComponentIn? kept c values times factor out).map (·.1) =
      addComponent? c values times factor out := by
  unfold addComponentIn?
  split
  · exact fst_addConvolutionIn? kept _
  · rw [Option.map_map]
    exact Option.map_id'

namespace ChannelLikelihood

variable {α β γ : Type}

/-- What a computation in memory gives. -/
def result : EStateM.Result (LikelihoodError α) (Memory α) β → Except (LikelihoodError α) β
  | .ok x _ => .ok x
  | .error e _ => .error e

/-- The memory after a computation. -/
def memoryAfter : EStateM.Result (LikelihoodError α) (Memory α) β → Memory α
  | .ok _ m => m
  | .error _ m => m

/-- What a computation in memory gives, with the rate that it leaves. -/
def observed :
    EStateM.Result (LikelihoodError α) (Memory α) β → Except (Interrupted α) (β × Array α)
  | .ok x m => .ok (x, m.rate)
  | .error e m => .error ⟨m.rate, e⟩

/-- A computation gives, and leaves of the rate, what a function says of the rate that it finds. -/
def Follows (x : InMemory α β) (f : Array α → Except (Interrupted α) (β × Array α)) : Prop :=
  ∀ m, observed (x m) = f m.rate

theorem follows_pure (x : β) : Follows (pure x : InMemory α β) fun rate => .ok (x, rate) :=
  fun _ => rfl

theorem follows_modifyRate (f : Array α → Array α) :
    Follows (modifyRate f) fun rate => .ok ((), f rate) := fun _ => rfl

theorem follows_ofExcept (x : Except (LikelihoodError α) β) :
    Follows (ofExcept x : InMemory α β) fun rate => (marked rate x).map (·, rate) := by
  intro m
  cases x <;> rfl

/-- What follows a computation sees of it what it gives and the rate that it leaves. -/
theorem observed_bind (x : InMemory α β) {g : β → InMemory α γ}
    {h : β → Array α → Except (Interrupted α) (γ × Array α)} (hg : ∀ y, Follows (g y) (h y))
    (m : Memory α) : observed ((x >>= g) m) = observed (x m) >>= fun r => h r.1 r.2 := by
  show observed (EStateM.bind x g m) = (observed (x m)).bind fun r => h r.1 r.2
  unfold EStateM.bind
  cases x m with
  | ok y m' => exact hg y m'
  | error e m' => rfl

theorem Follows.bind {x : InMemory α β} {f : Array α → Except (Interrupted α) (β × Array α)}
    {g : β → InMemory α γ} {h : β → Array α → Except (Interrupted α) (γ × Array α)}
    (hx : Follows x f) (hg : ∀ y, Follows (g y) (h y)) :
    Follows (x >>= g) fun rate => f rate >>= fun r => h r.1 r.2 := by
  intro m
  rw [observed_bind x hg, hx m]

theorem result_of_observed_ok {r : EStateM.Result (LikelihoodError α) (Memory α) β} {x : β}
    {rate : Array α} (h : observed r = .ok (x, rate)) :
    result r = .ok x ∧ (memoryAfter r).rate = rate := by
  cases r with
  | ok y m =>
    cases h
    exact ⟨rfl, rfl⟩
  | error e m => cases h

theorem result_of_observed_error {r : EStateM.Result (LikelihoodError α) (Memory α) β}
    {stop : Interrupted α} (h : observed r = .error stop) :
    result r = .error stop.error ∧ (memoryAfter r).rate = stop.sum := by
  cases r with
  | ok y m => cases h
  | error e m =>
    cases h
    exact ⟨rfl, rfl⟩

variable [Scalar α] {l : ChannelLikelihood α} {p : Assignment α}

theorem follows_addTimesIn (c : Component) (values : List α) (factor : α) :
    Follows (l.addTimesIn c values factor) fun rate =>
      .ok ((), l.addTimes c values factor rate) := by
  intro m
  show observed (.ok () (((Rate.addComponentIn? m.kept c values l.times factor m.rate).map
    fun r => ⟨r.1, r.2⟩).getD m)) = .ok ((), l.addTimes c values factor m.rate)
  rw [addTimes, ← Rate.fst_addComponentIn? m.kept]
  cases Rate.addComponentIn? m.kept c values l.times factor m.rate <;> rfl

theorem follows_addTermIn (lens : Option (Lens α)) (c : Component) (buffer : List α) :
    Follows (l.addTermIn lens c buffer) fun rate =>
      .ok ((l.addTerm lens c ⟨buffer, rate⟩).buffer, (l.addTerm lens c ⟨buffer, rate⟩).sum) := by
  unfold addTermIn
  cases lens with
  | none => exact (follows_addTimesIn c _ _).bind fun _ => follows_pure buffer
  | some lens =>
    exact (follows_addTimesIn c _ _).bind fun _ => (follows_addTimesIn c _ _).bind fun _ =>
      follows_pure _

/-- A term in memory is added as a term elsewhere, or breaks off as that. -/
theorem follows_sumTermIn (lens : Option (Lens α)) (buffer : List α) (term : Component × Nat) :
    Follows (l.sumTermIn p lens buffer term) fun rate =>
      (l.sumTerm p lens ⟨buffer, rate⟩ term).map fun s => (s.buffer, s.sum) := by
  intro m
  have hload := follows_ofExcept (load p (componentKeys l.channel term) buffer)
  refine (hload.bind fun buffer => follows_addTermIn lens term.1 buffer) m |>.trans ?_
  dsimp only [sumTerm]
  cases load p (componentKeys l.channel term) buffer <;> rfl

/-- All terms are, one after another. -/
theorem follows_foldlM (lens : Option (Lens α)) (terms : List (Component × Nat)) (buffer : List α) :
    Follows (terms.foldlM (l.sumTermIn p lens) buffer) fun rate =>
      (terms.foldlM (l.sumTerm p lens) ⟨buffer, rate⟩).map fun s => (s.buffer, s.sum) := by
  induction terms generalizing buffer with
  | nil => exact follows_pure buffer
  | cons term terms ih =>
    intro m
    simp only [List.foldlM_cons]
    refine ((follows_sumTermIn lens buffer term).bind ih) m |>.trans ?_
    dsimp only
    cases l.sumTerm p lens ⟨buffer, m.rate⟩ term <;> rfl

/-- A rate is summed in memory as it is elsewhere, whatever stands in the array before.  Where a
parameter is missing the sum is left that has been reached. -/
theorem observed_rateIn {m : Memory α} (hm : m.rate.size = l.size) :
    observed (l.rateIn p m) = (l.sum p).map fun sum => ((), clip sum) := by
  have hzeros : m.rate.map (fun _ => (0.0 : α)) = Array.replicate l.size 0.0 := by
    rw [Array.map_const', hm]
  have hterms (lens : Option (Lens α)) :=
    follows_foldlM (l := l) (p := p) lens l.model.components (List.replicate bufferSize 0.0)
  -- step by step as in `rateIn`
  have hrun := (follows_modifyRate (·.map fun _ => (0.0 : α))).bind fun _ =>
    (follows_ofExcept (l.lens? p)).bind fun lens =>
    (follows_ofExcept (lookup p (.background l.channel))).bind fun background =>
    ((hterms lens).bind fun _ => follows_pure ()).bind fun _ =>
    (follows_modifyRate (·.map (· + background))).bind fun _ => follows_modifyRate clip
  refine (hrun m).trans ?_
  unfold ChannelLikelihood.sum
  dsimp only
  rw [hzeros]
  cases l.lens? p with
  | error e => rfl
  | ok lens =>
    cases lookup p (.background l.channel) with
    | error e => rfl
    | ok background =>
      dsimp only [marked, Except.map, bind, Except.bind]
      cases l.model.components.foldlM (l.sumTerm p lens)
        ⟨List.replicate bufferSize 0.0, Array.replicate l.size 0.0⟩ <;> rfl

section

variable {m : Memory α} (hm : m.rate.size = l.size)
include hm

theorem rateIn_of_sum {sum : Array α} (h : l.sum p = .ok sum) :
    result (l.rateIn p m) = .ok () ∧ (memoryAfter (l.rateIn p m)).rate = clip sum := by
  have hrun := observed_rateIn (p := p) hm
  rw [h] at hrun
  exact result_of_observed_ok hrun

theorem rateIn_of_interrupted {stop : Interrupted α} (h : l.sum p = .error stop) :
    result (l.rateIn p m) = .error stop.error ∧
      (memoryAfter (l.rateIn p m)).rate = stop.sum := by
  have hrun := observed_rateIn (p := p) hm
  rw [h] at hrun
  exact result_of_observed_error hrun

/-- Finished or not, the array keeps its size and can be used again. -/
theorem size_rateIn : (memoryAfter (l.rateIn p m)).rate.size = l.size := by
  have hsize := size_sum l p
  cases h : l.sum p with
  | ok sum =>
    rw [h] at hsize
    rw [(rateIn_of_sum hm h).2, size_clip]
    exact hsize
  | error stop =>
    rw [h] at hsize
    rw [(rateIn_of_interrupted hm h).2]
    exact hsize

/-- What is missing is found in the order of the parameters that are listed. -/
theorem error?_rateIn : error? (result (l.rateIn p m)) = missing? p l.required := by
  rw [← brokenOff?_sum]
  cases h : l.sum p with
  | ok sum =>
    rw [(rateIn_of_sum hm h).1]
    rfl
  | error stop =>
    rw [(rateIn_of_interrupted hm h).1]
    rfl

theorem exists_sum_of_rateIn (h : result (l.rateIn p m) = .ok ()) : ∃ sum, l.sum p = .ok sum := by
  cases hsum : l.sum p with
  | ok sum => exact ⟨sum, rfl⟩
  | error stop =>
    rw [(rateIn_of_interrupted hm hsum).1] at h
    cases h

theorem rate_of_rateIn (h : result (l.rateIn p m) = .ok ()) :
    l.rate p = .ok (memoryAfter (l.rateIn p m)).rate := by
  obtain ⟨sum, hsum⟩ := exists_sum_of_rateIn hm h
  rw [(rateIn_of_sum hm hsum).2, rate, hsum]

/-- Writing a rate over an array is writing it in memory. -/
theorem overwrite?_eq_rateIn :
    l.overwrite? p m.rate =
      some ((memoryAfter (l.rateIn p m)).rate, error? (result (l.rateIn p m))) := by
  unfold overwrite?
  rw [if_pos hm]
  cases hsum : l.sum p with
  | ok sum =>
    obtain ⟨hresult, hrate⟩ := rateIn_of_sum hm hsum
    rw [hresult, hrate]
    rfl
  | error stop =>
    obtain ⟨hresult, hrate⟩ := rateIn_of_interrupted hm hsum
    rw [hresult, hrate]
    rfl

/-- Assignments that agree on what is read leave the same rate, in whatever memory. -/
theorem rateIn_congr {m' : Memory α} (hm' : m'.rate.size = l.size) {q : Assignment α}
    (hpq : ∀ k ∈ l.required, p[k.text]? = q[k.text]?) (h : result (l.rateIn p m) = .ok ()) :
    result (l.rateIn q m') = .ok () ∧
      (memoryAfter (l.rateIn q m')).rate = (memoryAfter (l.rateIn p m)).rate := by
  obtain ⟨sum, hsum⟩ := exists_sum_of_rateIn hm h
  obtain ⟨hresult, hrate⟩ := rateIn_of_sum hm' ((sum_congr hpq).symm.trans hsum)
  exact ⟨hresult, hrate.trans (rateIn_of_sum hm hsum).2.symm⟩

/-- The log-likelihood in memory is that of the assignment, and the array stays as it was left. -/
theorem logIn_eq :
    result (l.logIn p m) = l.logAt p ∧
      (memoryAfter (l.logIn p m)).rate = (memoryAfter (l.rateIn p m)).rate := by
  have hlog : ∀ _ : Unit, Follows (do ofExcept (l.logOfRate (← get).rate) : InMemory α α)
      fun rate => (marked rate (l.logOfRate rate)).map (·, rate) :=
    fun _ m => follows_ofExcept (l.logOfRate m.rate) m
  have hrun := observed_bind (l.rateIn p) hlog m
  rw [observed_rateIn hm] at hrun
  unfold logAt rate
  cases hsum : l.sum p with
  | error stop =>
    rw [hsum] at hrun
    rw [(rateIn_of_interrupted hm hsum).2]
    exact result_of_observed_error hrun
  | ok sum =>
    rw [hsum] at hrun
    rw [(rateIn_of_sum hm hsum).2]
    have hrun : observed (l.logIn p m) =
        (marked (clip sum) (l.logOfRate (clip sum))).map (·, clip sum) := hrun
    show result (l.logIn p m) = l.logOfRate (clip sum) ∧ _
    generalize l.logOfRate (clip sum) = value at hrun ⊢
    cases value with
    | ok x => exact result_of_observed_ok hrun
    | error e => exact result_of_observed_error hrun

end

/-! ## One evaluation after another -/

/-- The array that a likelihood may keep: none at first, then what the last evaluation has left.
Other likelihoods may use the buffers of convolutions in between. -/
inductive MayKeep (l : ChannelLikelihood α) : Option (Array α) → Prop
  | nothing : MayKeep l none
  | evaluated {array : Option (Array α)} (h : MayKeep l array) (q : Assignment α)
      (kept : Option (Rate.Workspace α)) :
      MayKeep l (some (memoryAfter (l.evaluate q array kept)).rate)

/-- An evaluation leaves an array in which the next one can be made. -/
theorem MayKeep.size_getD {array : Option (Array α)} (h : l.MayKeep array) :
    (array.getD (Array.replicate l.size 0.0)).size = l.size := by
  induction h with
  | nothing => exact Array.size_replicate
  | evaluated _ q kept ih =>
    show (memoryAfter (l.logIn q _)).rate.size = l.size
    rw [(logIn_eq ih).2]
    exact size_rateIn ih

theorem result_evaluate {array : Option (Array α)} (h : l.MayKeep array)
    (kept : Option (Rate.Workspace α)) : result (l.evaluate p array kept) = l.logAt p :=
  (logIn_eq h.size_getD).1

/-- The rate is written over an array if and only if all parameters that are listed have values;
else the first that has none is reported.  What is written is the rate of the assignment, which
depends on those parameters alone, whatever stood in the array and in the buffers of convolutions.
After other evaluations, also such as broke off, an evaluation gives what it gives in new memory. -/
theorem evaluate_forgets (l : ChannelLikelihood α) (p : Assignment α) :
    (∀ m, m.rate.size = l.size →
      l.overwrite? p m.rate =
        some ((memoryAfter (l.rateIn p m)).rate, error? (result (l.rateIn p m))) ∧
      (result (l.rateIn p m) = .ok () ↔ ∀ k ∈ l.required, k.text ∈ p) ∧
      ∀ before k after, l.required = before ++ k :: after → (∀ k' ∈ before, k'.text ∈ p) →
        k.text ∉ p → result (l.rateIn p m) = .error (.missingParameter k.text)) ∧
    (∀ m, m.rate.size = l.size → result (l.rateIn p m) = .ok () →
      l.rate p = .ok (memoryAfter (l.rateIn p m)).rate ∧
      ∀ m' q, m'.rate.size = l.size → (∀ k ∈ l.required, p[k.text]? = q[k.text]?) →
        result (l.rateIn q m') = .ok () ∧
          (memoryAfter (l.rateIn q m')).rate = (memoryAfter (l.rateIn p m)).rate) ∧
    ∀ array, l.MayKeep array → ∀ kept,
      result (l.evaluate p array kept) = result (l.evaluate p none none) ∧
        result (l.evaluate p array kept) = l.logAt p := by
  refine ⟨fun m hm => ⟨overwrite?_eq_rateIn hm, ?complete, ?missing⟩,
    fun m hm h => ⟨rate_of_rateIn hm h, fun _ _ hm' hpq => rateIn_congr hm hm' hpq h⟩, ?after⟩
  case complete =>
    rw [← missing?_eq_none, ← error?_rateIn hm, error?_eq_none]
    exact ⟨fun h => ⟨(), h⟩, fun ⟨_, h⟩ => h⟩
  case missing =>
    intro before k after hkeys hbefore hk
    apply error?_eq_some.mp
    rw [error?_rateIn hm, hkeys, missing?_eq_some hbefore hk]
  case after =>
    intro array harray kept
    have hvalue := result_evaluate (p := p) harray kept
    exact ⟨hvalue.trans (result_evaluate .nothing none).symm, hvalue⟩

/-- A Gaussian and a convolved pulse under a lens, in three bins. -/
def lensedPair : ChannelLikelihood Float :=
  ⟨⟨true, [⟨.gaussian, none⟩, ⟨.convolution, none⟩], none⟩, .a, #[0.0, 1.0, 2.0],
    #[3.0, 2.0, 4.0], by simp⟩

/-- The value one for some of the parameters. -/
def ones (keys : List Key) : Assignment Float := .ofPairs (keys.map fun k => (k.text, 1.0))

theorem mem_ones {keys : List Key} {k : Key} : k.text ∈ ones keys ↔ k ∈ keys := by
  rw [ones, Assignment.mem_ofPairs, List.map_map]
  constructor
  · intro h
    obtain ⟨k', hk', htext⟩ := List.mem_map.mp h
    exact Key.text_injective htext ▸ hk'
  · intro h
    exact List.mem_map_of_mem h

/-- An evaluation that lacks its last parameter, in an array that is not empty, and a complete one
in what it leaves. -/
theorem evaluate_forgets_lensedPair :
    result (lensedPair.rateIn (ones lensedPair.required.dropLast) ⟨#[5.0, 7.0, 9.0], none⟩) =
        .error (.missingParameter "tau_2_a") ∧
      result (lensedPair.evaluate (ones lensedPair.required)
          (some (memoryAfter
            (lensedPair.evaluate (ones lensedPair.required.dropLast) none none)).rate) none) =
        result (lensedPair.evaluate (ones lensedPair.required) none none) := by
  obtain ⟨hmemory, -⟩ := evaluate_forgets lensedPair (ones lensedPair.required.dropLast)
  obtain ⟨-, -, hafter⟩ := evaluate_forgets lensedPair (ones lensedPair.required)
  have hsize : lensedPair.size = 3 := rfl
  obtain ⟨-, -, hmissing⟩ := hmemory ⟨#[5.0, 7.0, 9.0], none⟩ hsize.symm
  have hrequired : lensedPair.required =
      lensedPair.required.dropLast ++ .shape .tau 2 .a :: [] := by decide
  have hlast : .shape .tau 2 .a ∉ lensedPair.required.dropLast := by decide
  have hname : (Key.shape .tau 2 .a).text = "tau_2_a" := by decide
  rw [← hname]
  exact ⟨hmissing _ _ _ hrequired (fun _ hk => mem_ones.mpr hk) fun hk => hlast (mem_ones.mp hk),
    (hafter _ (.evaluated .nothing _ none) none).1⟩

end ChannelLikelihood

end PulseFit
