import PulseFit.Ensemble
import PulseFit.Proofs.Traversal
import Mathlib.Tactic.SplitIfs

/-!
# Proofs.Ensemble — what an ensemble reports

Whatever an ensemble does, its history has an entry for every step and in it as many walkers as
there were starting positions, all of one dimension (`IsHistory`).  Moves along the lines through
two walkers keep it so (`run_isHistory`).
-/

namespace PulseFit.Ensemble

/-- Some number of walkers in a space of some dimension. -/
structure IsPopulation (walkers dimension : Nat) (step : List Walker) : Prop where
  walkers : step.length = walkers
  dimension : ∀ w ∈ step, w.position.length = dimension

/-- The walkers after each of some number of steps, with any log-densities. -/
structure IsHistory (walkers dimension iterations : Nat) (history : List (List Walker)) :
    Prop where
  iterations : history.length = iterations
  steps : ∀ step ∈ history, IsPopulation walkers dimension step

section

variable {walkers dimension iterations : Nat} {history : List (List Walker)}

theorem IsHistory.length_flatten (h : IsHistory walkers dimension iterations history) :
    history.flatten.length = walkers * iterations := by
  rw [List.length_flatten, List.map_congr_left fun step hstep => (h.steps step hstep).walkers,
    List.map_const', List.sum_replicate_nat, h.iterations, Nat.mul_comm]

theorem IsHistory.length_position (h : IsHistory walkers dimension iterations history)
    {w : Walker} (hw : w ∈ history.flatten) : w.position.length = dimension := by
  obtain ⟨step, hstep, hw⟩ := List.mem_flatten.mp hw
  exact (h.steps step hstep).dimension w hw

end

section

variable {walkers dimension : Nat} {first second : List Walker}

theorem IsPopulation.append {n : Nat} (h : IsPopulation walkers dimension first)
    (h' : IsPopulation n dimension second) :
    IsPopulation (walkers + n) dimension (first ++ second) where
  walkers := by rw [List.length_append, h.walkers, h'.walkers]
  dimension w hw := (List.mem_append.mp hw).elim (h.dimension w) (h'.dimension w)

theorem IsPopulation.cons {w : Walker} (h : IsPopulation walkers dimension first)
    (hw : w.position.length = dimension) :
    IsPopulation (walkers + 1) dimension (w :: first) where
  walkers := congrArg (· + 1) h.walkers
  dimension v hv := by
    rcases List.mem_cons.mp hv with rfl | hv
    · exact hw
    · exact h.dimension v hv

end

variable {α : Type} [Scalar α] {density : List Single → Single} {dimension : Nat}
  {draws rest : Draws α} {w w' : Walker}

/-- A walker stands where it was put. -/
theorem position_of_place {position : List Single} (h : place density position = .ok w) :
    w.position = position := by
  unfold place at h
  dsimp only at h
  split_ifs at h
  cases h
  rfl

theorem length_partner {others : Array Walker}
    (hothers : ∀ v ∈ others, v.position.length = dimension) (hw : w.position.length = dimension) :
    (partner others w draws).1.position.length = dimension := by
  show (others.getD (Scalar.toNat (Scalar.floor (Scalar.ofNat others.size * draws.next.1)))
    w).position.length = dimension
  generalize Scalar.toNat (Scalar.floor (Scalar.ofNat others.size * draws.next.1)) = i
  rw [Array.getD_eq_getD_getElem?]
  cases hi : others[i]? with
  | none => exact hw
  | some v => exact hothers v (Array.mem_of_getElem? hi)

/-- A move stays in the space of two walkers. -/
theorem length_move {others : Array Walker}
    (hothers : ∀ v ∈ others, v.position.length = dimension) (hw : w.position.length = dimension)
    (h : move density dimension others w draws = .ok (w', rest)) :
    w'.position.length = dimension := by
  obtain ⟨candidate, hplace, hmoved⟩ := bind_eq_ok_iff.mp h
  have hposition : candidate.position =
      proposal (partner others w (nextSingle draws).2).1.position w.position _ :=
    position_of_place hplace
  have hcandidate : candidate.position.length = dimension := by
    rw [hposition, proposal, List.length_zipWith, length_partner hothers hw, hw, Nat.min_self]
  obtain rfl := congrArg Prod.fst (Except.ok.inj hmoved)
  dsimp only
  split
  · exact hcandidate
  · exact hw

theorem moveAll_population {others : Array Walker} {walkers moved : List Walker} {n : Nat}
    (hothers : ∀ v ∈ others, v.position.length = dimension)
    (hwalkers : IsPopulation n dimension walkers)
    (h : moveAll density dimension others walkers draws = .ok (moved, rest)) :
    IsPopulation n dimension moved := by
  induction walkers generalizing draws moved n with
  | nil =>
    cases h
    exact hwalkers
  | cons w walkers ih =>
    obtain ⟨⟨w', draws'⟩, hmove, h⟩ := bind_eq_ok_iff.mp h
    obtain ⟨⟨moved', draws''⟩, hmoveAll, h⟩ := bind_eq_ok_iff.mp h
    cases h
    have hw' := length_move hothers (hwalkers.dimension w List.mem_cons_self) hmove
    have htail : IsPopulation walkers.length dimension walkers :=
      ⟨rfl, fun v hv => hwalkers.dimension v (List.mem_cons_of_mem w hv)⟩
    rw [← hwalkers.walkers]
    exact (ih htail hmoveAll).cons hw'

/-- Each half moves along the other, and the two make a population again. -/
theorem step_population {walkers moved : List Walker} {n : Nat}
    (hwalkers : IsPopulation n dimension walkers)
    (h : step density dimension walkers draws = .ok (moved, rest)) :
    IsPopulation n dimension moved := by
  unfold step at h
  rw [List.splitAt_eq] at h
  obtain ⟨⟨first, draws'⟩, hfirst, h⟩ := bind_eq_ok_iff.mp h
  obtain ⟨⟨second, draws''⟩, hsecond, h⟩ := bind_eq_ok_iff.mp h
  cases h
  have hhalf : (walkers.take (walkers.length / 2)).length +
      (walkers.drop (walkers.length / 2)).length = n := by
    rw [← List.length_append, List.take_append_drop, hwalkers.walkers]
  have hfront := moveAll_population (n := (walkers.take (walkers.length / 2)).length)
    (fun v hv => hwalkers.dimension v (List.mem_of_mem_drop (List.mem_toArray.mp hv)))
    ⟨rfl, fun v hv => hwalkers.dimension v (List.mem_of_mem_take hv)⟩ hfirst
  have hback := moveAll_population (n := (walkers.drop (walkers.length / 2)).length)
    (fun v hv => hfront.dimension v (List.mem_toArray.mp hv))
    ⟨rfl, fun v hv => hwalkers.dimension v (List.mem_of_mem_drop hv)⟩ hsecond
  rw [← hhalf]
  exact hfront.append hback

/-- The walkers after each step are a population of the size of the first. -/
theorem steps_isHistory {walkers : List Walker} {n iterations : Nat}
    {history : List (List Walker)} (hwalkers : IsPopulation n dimension walkers)
    (h : steps density dimension iterations walkers draws = .ok history) :
    IsHistory n dimension iterations history := by
  induction iterations generalizing walkers draws history with
  | zero =>
    cases h
    exact ⟨rfl, fun _ hstep => nomatch hstep⟩
  | succ iterations ih =>
    obtain ⟨⟨moved, draws'⟩, hstep, h⟩ := bind_eq_ok_iff.mp h
    obtain ⟨later, hlater, h⟩ := bind_eq_ok_iff.mp h
    cases h
    have hmoved := step_population hwalkers hstep
    have hrest := ih hmoved hlater
    refine ⟨congrArg (· + 1) hrest.iterations, fun step hmem => ?_⟩
    rcases List.mem_cons.mp hmem with rfl | hmem
    · exact hmoved
    · exact hrest.steps step hmem

/-- A run from positions of one dimension has a history of that dimension. -/
theorem run_isHistory {positions : List (List Single)} {iterations : Nat}
    {history : List (List Walker)}
    (hpositions : ∀ position ∈ positions, position.length = dimension)
    (h : run density dimension iterations positions draws = .ok history) :
    IsHistory positions.length dimension iterations history := by
  obtain ⟨_, -, h⟩ := bind_eq_ok_iff.mp h
  obtain ⟨walkers, hwalkers, h⟩ := bind_eq_ok_iff.mp h
  have hplaced := map_eq_of_mapM_eq_ok hwalkers
  have hlength := congrArg List.length hplaced
  rw [List.length_map, List.length_map] at hlength
  refine steps_isHistory ⟨hlength.symm, fun w hw => ?_⟩ h
  · have hmem : Except.ok w ∈ positions.map (place density) :=
      hplaced ▸ List.mem_map_of_mem hw
    obtain ⟨position, hposition, hplace⟩ := List.mem_map.mp hmem
    rw [position_of_place hplace]
    exact hpositions position hposition

end PulseFit.Ensemble
