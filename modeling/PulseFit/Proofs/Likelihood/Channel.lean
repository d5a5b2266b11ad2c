import Mathlib.Data.List.Perm.Basic
import PulseFit.Likelihood.Channel
import PulseFit.Proofs.Model.Keys
import PulseFit.Proofs.Traversal

/-!
# Proofs.Likelihood.Channel — the parameters that a likelihood reads

A likelihood lists its parameters pulse by pulse, a model quantity by quantity; the lists are
permutations of each other (`required_perm`).  A summation looks them up in its own order and breaks
off at the first that is missing (`brokenOff?_sum`); an assignment with all of them never lacks a
parameter (`logAt_ne_missingParameter`).  The rate is then clipped and its bins are scanned.
-/

namespace PulseFit

/-- A table may be read by rows or by columns. -/
theorem flatMap_map_perm {α β γ : Type} (f : α → β → γ) (xs : List α) (ys : List β) :
    (xs.flatMap fun x => ys.map (f x)).Perm (ys.flatMap fun y => xs.map fun x => f x y) := by
  induction xs with
  | nil => simp
  | cons x xs ih =>
    rw [List.flatMap_cons]
    refine (ih.append_left _).trans ?_
    exact List.map_append_flatMap_perm ys (f x) fun y => xs.map fun x => f x y

namespace ChannelLikelihood

variable {α : Type}

/-- The keys of all components, pulse by pulse. -/
theorem flatMap_componentKeys_perm (m : Model) (ch : Channel) :
    (m.components.flatMap (componentKeys ch)).Perm (Component.all.flatMap (m.shapeKeys ch)) := by
  rw [Model.components, List.flatMap_assoc]
  refine List.Perm.flatMap_left _ fun c _ => ?_
  rw [List.flatMap_map]
  exact flatMap_map_perm (fun i q => Key.shape q i ch) (m.indices c) c.quantities

/-- A likelihood reads the parameters of its model in its channel, each once. -/
theorem required_perm (l : ChannelLikelihood α) : l.required.Perm (l.model.keys l.channel) := by
  rw [required, Model.keys_eq]
  exact ((flatMap_componentKeys_perm l.model l.channel).cons _).append_left _

theorem mem_required {l : ChannelLikelihood α} {k : Key} :
    k ∈ l.required ↔ k ∈ l.model.keys l.channel :=
  l.required_perm.mem_iff

/-- The keys of a component of the model are read. -/
theorem mem_required_of_mem_componentKeys {l : ChannelLikelihood α} {term : Component × Nat}
    (hterm : term ∈ l.model.components) {k : Key} (hk : k ∈ componentKeys l.channel term) :
    k ∈ l.required := by
  apply List.mem_append_right
  apply List.mem_cons_of_mem
  exact List.mem_flatMap.mpr ⟨term, hterm, hk⟩

/-! ## What is missing -/

section

variable {p : Assignment α}

/-- The error at the first of some keys that has no value. -/
def missing? (p : Assignment α) (keys : List Key) : Option (LikelihoodError α) :=
  (keys.find? fun k => k.text ∉ p).map fun k => .missingParameter k.text

theorem missing?_append (keys keys' : List Key) :
    missing? p (keys ++ keys') = (missing? p keys).or (missing? p keys') := by
  unfold missing?
  rw [List.find?_append, Option.map_or]

theorem missing?_eq_none {keys : List Key} :
    missing? p keys = none ↔ ∀ k ∈ keys, k.text ∈ p := by
  simp [missing?]

theorem missing?_eq_some {before after : List Key} {k : Key}
    (hbefore : ∀ k' ∈ before, k'.text ∈ p) (hk : k.text ∉ p) :
    missing? p (before ++ k :: after) = some (.missingParameter k.text) := by
  rw [missing?_append, missing?_eq_none.mpr hbefore, Option.none_or]
  simp [missing?, hk]

theorem exists_of_missing? {keys : List Key} {e : LikelihoodError α}
    (h : missing? p keys = some e) : ∃ k : Key, e = .missingParameter k.text := by
  obtain ⟨k, -, rfl⟩ := Option.map_eq_some_iff.mp h
  exact ⟨k, rfl⟩

theorem error?_lookup (k : Key) : error? (lookup p k) = missing? p [k] := by
  unfold lookup
  by_cases hk : k.text ∈ p
  · rw [Std.ExtTreeMap.getElem?_eq_some_getElem hk, missing?_eq_none.mpr (by simpa using hk)]
    rfl
  · have hnone : ∀ k' ∈ ([] : List Key), k'.text ∈ p := nofun
    rw [Std.ExtTreeMap.getElem?_eq_none hk]
    exact (missing?_eq_some hnone hk).symm

/-- Values are looked up in order where a buffer has room for them. -/
theorem error?_load {keys : List Key} {buffer : List α} (hroom : keys.length ≤ buffer.length) :
    error? (load p keys buffer) = missing? p keys := by
  induction keys generalizing buffer with
  | nil => cases buffer <;> rfl
  | cons k keys ih =>
    cases buffer with
    | nil => simp at hroom
    | cons y buffer =>
      have hkeys := ih (Nat.le_of_succ_le_succ hroom)
      rw [load, ← List.singleton_append, missing?_append, ← error?_lookup]
      apply error?_bind
      intro x _
      rw [error?_map, hkeys]

theorem length_load {keys : List Key} {buffer loaded : List α}
    (h : load p keys buffer = .ok loaded) : loaded.length = buffer.length := by
  induction keys generalizing buffer loaded with
  | nil =>
    cases buffer <;> cases h <;> rfl
  | cons k keys ih =>
    cases buffer with
    | nil =>
      cases h
      rfl
    | cons y buffer =>
      rw [load] at h
      cases hk : lookup p k with
      | error e =>
        rw [hk] at h
        cases h
      | ok x =>
        cases hkeys : load p keys buffer with
        | error e =>
          rw [hk, hkeys] at h
          cases h
        | ok rest =>
          rw [hk, hkeys] at h
          cases h
          exact congrArg (· + 1) (ih hkeys)

/-- The parameters of the lens are looked up, if there is one. -/
theorem error?_lens? (l : ChannelLikelihood α) :
    error? (l.lens? p) =
      missing? p (if l.model.lensed then LensQuantity.all.map Key.lens else []) := by
  unfold lens?
  by_cases hl : l.model.lensed = true
  · have hall : LensQuantity.all.map Key.lens =
        [.lens .timeDelay] ++ [.lens .magnificationRatio] := rfl
    rw [if_pos hl, if_pos hl, hall, missing?_append, ← error?_lookup, ← error?_lookup]
    apply error?_bind
    intro delay _
    rw [error?_map]
  · rw [if_neg hl, if_neg hl]
    rfl

end

/-- Why a summation broke off. -/
def brokenOff? {β : Type} (x : Except (Interrupted α) β) : Option (LikelihoodError α) :=
  (error? x).map (·.error)

theorem brokenOff?_marked {β : Type} (sum : Array α) (x : Except (LikelihoodError α) β) :
    brokenOff? (marked sum x) = error? x := by cases x <;> rfl

theorem brokenOff?_bind {β γ : Type} {x : Except (Interrupted α) β}
    {f : β → Except (Interrupted α) γ} {second : Option (LikelihoodError α)}
    (h : ∀ y, x = .ok y → brokenOff? (f y) = second) :
    brokenOff? (x >>= f) = (brokenOff? x).or second := by
  cases x with
  | ok y => exact h y rfl
  | error stop => rfl

theorem brokenOff?_map {β γ : Type} {x : Except (Interrupted α) β} (f : β → γ) :
    brokenOff? (do let y ← x; return f y) = brokenOff? x := by cases x <;> rfl

theorem length_quantities_le (c : Component) : c.quantities.length ≤ bufferSize := by
  rcases c with (_ | _ | _ | _) | (_ | _) <;> decide

variable [Scalar α] {l : ChannelLikelihood α} {p : Assignment α}

theorem length_addTerm (lens : Option (Lens α)) (c : Component) (s : Summation α) :
    (l.addTerm lens c s).buffer.length = s.buffer.length := by
  cases lens with
  | none => rfl
  | some lens => exact List.length_modify ..

/-- A term looks up the values of its component. -/
theorem brokenOff?_sumTerm {s : Summation α} (hs : s.buffer.length = bufferSize)
    (lens : Option (Lens α)) (term : Component × Nat) :
    brokenOff? (l.sumTerm p lens s term) = missing? p (componentKeys l.channel term) := by
  have hroom : (componentKeys l.channel term).length ≤ s.buffer.length := by
    rw [componentKeys, List.length_map, hs]
    exact length_quantities_le term.1
  unfold sumTerm
  rw [brokenOff?_map, brokenOff?_marked, error?_load hroom]

/-- A term leaves the buffer as long as it was. -/
theorem length_sumTerm {s next : Summation α} {lens : Option (Lens α)} {term : Component × Nat}
    (h : l.sumTerm p lens s term = .ok next) : next.buffer.length = s.buffer.length := by
  unfold sumTerm at h
  cases hload : load p (componentKeys l.channel term) s.buffer with
  | error e =>
    rw [hload] at h
    cases h
  | ok buffer =>
    rw [hload] at h
    cases h
    rw [length_addTerm]
    exact length_load hload

/-- The terms look up their values one after another. -/
theorem brokenOff?_foldlM {terms : List (Component × Nat)} {s : Summation α}
    (hs : s.buffer.length = bufferSize) (lens : Option (Lens α)) :
    brokenOff? (terms.foldlM (l.sumTerm p lens) s) =
      missing? p (terms.flatMap (componentKeys l.channel)) := by
  induction terms generalizing s with
  | nil => rfl
  | cons term terms ih =>
    rw [List.foldlM_cons, List.flatMap_cons, missing?_append, ← brokenOff?_sumTerm hs lens term]
    apply brokenOff?_bind
    intro next hnext
    exact ih ((length_sumTerm hnext).trans hs)

/-- A summation breaks off at the first parameter that has no value. -/
theorem brokenOff?_sum (l : ChannelLikelihood α) (p : Assignment α) :
    brokenOff? (l.sum p) = missing? p l.required := by
  unfold ChannelLikelihood.sum required
  rw [missing?_append, ← error?_lens?, ← brokenOff?_marked (Array.replicate l.size 0.0)]
  apply brokenOff?_bind
  intro lens _
  rw [← List.singleton_append, missing?_append, ← error?_lookup,
    ← brokenOff?_marked (Array.replicate l.size 0.0)]
  apply brokenOff?_bind
  intro background _
  rw [brokenOff?_map, brokenOff?_foldlM List.length_replicate]

/-- There is a rate wherever there are all parameters. -/
theorem exists_sum (h : ∀ k ∈ l.required, k.text ∈ p) : ∃ sum, l.sum p = .ok sum := by
  apply error?_eq_none.mp
  apply Option.map_eq_none_iff.mp
  exact (brokenOff?_sum l p).trans (missing?_eq_none.mpr h)

theorem exists_rate (h : ∀ k ∈ l.required, k.text ∈ p) : ∃ rate, l.rate p = .ok rate := by
  obtain ⟨sum, hsum⟩ := exists_sum h
  rw [rate, hsum]
  exact ⟨clip sum, rfl⟩

theorem rate_of_missing? {e : LikelihoodError α} (h : missing? p l.required = some e) :
    l.rate p = .error e := by
  have hbroken : brokenOff? (l.sum p) = some e := (brokenOff?_sum l p).trans h
  obtain ⟨stop, hstop, herror⟩ := Option.map_eq_some_iff.mp hbroken
  rw [rate, error?_eq_some.mp hstop]
  exact congrArg Except.error herror

theorem logAt_of_missing? {e : LikelihoodError α} (h : missing? p l.required = some e) :
    l.logAt p = .error e := by
  rw [logAt, rate_of_missing? h]
  rfl

/-! ## Clipping -/

theorem clip_of_neg {rate : Array α} (h : ∃ x ∈ rate, x < 0.0) :
    clip rate = Array.replicate rate.size 0.0 := by
  have hany : (rate.any fun x => x < 0.0) = true := by
    rw [Array.any_eq_true']
    simpa using h
  unfold clip
  rw [if_pos hany, Array.map_const']

theorem clip_of_not_neg {rate : Array α} (h : ∀ x ∈ rate, ¬ x < 0.0) : clip rate = rate := by
  have hany : ¬ (rate.any fun x => x < 0.0) = true := by
    rw [Array.any_eq_true']
    simpa using h
  exact if_neg hany

/-! ## Rates that cannot be those of a Poisson law -/

open Scalar (isFinite negInfinity)

theorem badBin?_eq_none {rate : List α} (h : ∀ x ∈ rate, isFinite x = true ∧ ¬ x < 0.0) (i : Nat) :
    badBin? i rate = none := by
  induction rate generalizing i with
  | nil => rfl
  | cons x rate ih =>
    obtain ⟨hfinite, hnonneg⟩ := h x List.mem_cons_self
    rw [badBin?, hfinite, if_neg hnonneg]
    exact ih (fun y hy => h y (List.mem_cons_of_mem _ hy)) (i + 1)

/-- The first bin that is no finite number is reported after others that are not negative. -/
theorem badBin?_eq_nonFiniteRate {before after : List α} {x : α}
    (hbefore : ∀ y ∈ before, isFinite y = true ∧ ¬ y < 0.0) (hx : isFinite x = false) (i : Nat) :
    badBin? i (before ++ x :: after) = some (.nonFiniteRate (i + before.length)) := by
  induction before generalizing i with
  | nil =>
    rw [List.nil_append, badBin?, hx]
    rfl
  | cons y before ih =>
    obtain ⟨hfinite, hnonneg⟩ := hbefore y List.mem_cons_self
    have hrest := ih (fun z hz => hbefore z (List.mem_cons_of_mem _ hz)) (i + 1)
    rw [List.cons_append, badBin?, hfinite, if_neg hnonneg, List.length_cons,
      Nat.add_comm before.length, ← Nat.add_assoc]
    exact hrest

theorem logOfRate_of_nonFinite {rate : Array α} {before after : List α} {x : α}
    (hrate : rate.toList = before ++ x :: after)
    (hbefore : ∀ y ∈ before, isFinite y = true ∧ ¬ y < 0.0) (hx : isFinite x = false) :
    l.logOfRate rate = .error (.nonFiniteRate before.length) := by
  unfold logOfRate
  rw [hrate, badBin?_eq_nonFiniteRate hbefore hx, Nat.zero_add]

theorem logOfRate_of_finite {rate : Array α} (h : ∀ x ∈ rate, isFinite x = true ∧ ¬ x < 0.0) :
    l.logOfRate rate = if rate.any (· == 0.0) then .ok negInfinity
      else .ok (logSum rate.toList l.counts.toList) := by
  have hnone : badBin? 0 rate.toList = none := by
    apply badBin?_eq_none
    intro x hx
    exact h x (Array.mem_toList_iff.mp hx)
  unfold logOfRate
  rw [hnone]

theorem logOfRate_of_zero {rate : Array α} (h : ∀ x ∈ rate, isFinite x = true ∧ ¬ x < 0.0)
    (hzero : ∃ x ∈ rate, (x == 0.0) = true) : l.logOfRate rate = .ok negInfinity := by
  have hany : rate.any (· == 0.0) = true := Array.any_eq_true'.mpr hzero
  rw [logOfRate_of_finite h, if_pos hany]

theorem logOfRate_of_pos {rate : Array α} (h : ∀ x ∈ rate, isFinite x = true ∧ ¬ x < 0.0)
    (hzero : ∀ x ∈ rate, (x == 0.0) = false) :
    l.logOfRate rate = .ok (logSum rate.toList l.counts.toList) := by
  have hany : ¬ rate.any (· == 0.0) = true := by
    rw [Array.any_eq_true']
    rintro ⟨x, hx, heq⟩
    rw [hzero x hx] at heq
    cases heq
  rw [logOfRate_of_finite h, if_neg hany]

theorem badBin?_ne_missingParameter (i : Nat) (rate : List α) (name : String) :
    badBin? i rate ≠ some (.missingParameter name) := by
  induction rate generalizing i with
  | nil => exact nofun
  | cons x rate ih =>
    rw [badBin?]
    split
    · exact nofun
    · split
      · exact nofun
      · exact ih (i + 1)

/-- What fails on a rate is not a parameter. -/
theorem logOfRate_ne_missingParameter (rate : Array α) (name : String) :
    l.logOfRate rate ≠ .error (.missingParameter name) := by
  intro h
  rw [logOfRate] at h
  split at h
  · next error herror =>
    cases h
    exact badBin?_ne_missingParameter 0 rate.toList name herror
  · split at h <;> cases h

/-- No parameter is missing where all that are read are there. -/
theorem logAt_ne_missingParameter (h : ∀ k ∈ l.required, k.text ∈ p) (name : String) :
    l.logAt p ≠ .error (.missingParameter name) := by
  obtain ⟨sum, hsum⟩ := exists_sum h
  rw [logAt, rate, hsum]
  exact logOfRate_ne_missingParameter (clip sum) name

end ChannelLikelihood

end PulseFit
