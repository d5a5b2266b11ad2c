/-!
# Proofs.Traversal — traversals of lists whose steps may fail

A traversal succeeds if every step does, and one that fails does so at one of its steps.
-/

namespace PulseFit

section

variable {ε α β γ σ : Type}

/-! ## Errors -/

/-- The error of a computation that fails. -/
def error? : Except ε β → Option ε
  | .ok _ => none
  | .error e => some e

theorem error?_eq_none {x : Except ε β} : error? x = none ↔ ∃ y, x = .ok y := by
  cases x with
  | ok y => exact ⟨fun _ => ⟨y, rfl⟩, fun _ => rfl⟩
  | error e => exact ⟨nofun, nofun⟩

theorem error?_eq_some {x : Except ε β} {e : ε} : error? x = some e ↔ x = .error e := by
  cases x with
  | ok y => exact ⟨nofun, nofun⟩
  | error e' => exact ⟨fun h => congrArg _ (Option.some.inj h), fun h => congrArg error? h⟩

/-- A computation in two parts fails in the first part or else in the second. -/
theorem error?_bind {x : Except ε β} {f : β → Except ε γ} {second : Option ε}
    (h : ∀ y, x = .ok y → error? (f y) = second) : error? (x >>= f) = (error? x).or second := by
  cases x with
  | ok y => exact h y rfl
  | error e => rfl

/-- What is made of a result does not fail. -/
theorem error?_map {x : Except ε β} (f : β → γ) :
    error? (do let y ← x; return f y) = error? x := by cases x <;> rfl

/-- A computation in two parts succeeds if both parts do. -/
theorem bind_eq_ok_iff {x : Except ε β} {f : β → Except ε γ} {z : γ} :
    x >>= f = .ok z ↔ ∃ y, x = .ok y ∧ f y = .ok z := by
  cases x with
  | ok y => exact ⟨fun h => ⟨y, rfl, h⟩, fun ⟨_, hy, hz⟩ => Except.ok.inj hy ▸ hz⟩
  | error e => exact ⟨nofun, fun ⟨_, hy, _⟩ => nomatch hy⟩

/-! ## Traversals -/

theorem exists_mapM_eq_some {f : α → Option β} {xs : List α} (h : ∀ x ∈ xs, ∃ y, f x = some y) :
    ∃ ys, xs.mapM f = some ys := by
  induction xs with
  | nil => exact ⟨[], rfl⟩
  | cons x xs ih =>
    obtain ⟨y, hy⟩ := h x List.mem_cons_self
    obtain ⟨ys, hys⟩ := ih fun z hz => h z (List.mem_cons_of_mem x hz)
    exact ⟨y :: ys, by simp [hy, hys]⟩

/-- Steps that succeed with the value of a function make a traversal that maps the function. -/
theorem mapM_eq_pure_map {m : Type → Type} [Monad m] [LawfulMonad m] {f : α → m β} {g : α → β}
    {xs : List α} (h : ∀ x ∈ xs, f x = pure (g x)) : xs.mapM f = pure (xs.map g) := by
  induction xs with
  | nil => rfl
  | cons x xs ih =>
    have hxs := ih fun z hz => h z (List.mem_cons_of_mem x hz)
    rw [List.mapM_cons, h x List.mem_cons_self, hxs, pure_bind, pure_bind, List.map_cons]

/-- Steps that succeed with the value of a function make a traversal that folds the function. -/
theorem foldlM_eq_pure_foldl {m : Type → Type} [Monad m] [LawfulMonad m] {f : σ → α → m σ}
    {g : σ → α → σ} {xs : List α} (h : ∀ x ∈ xs, ∀ s, f s x = pure (g s x)) (s : σ) :
    xs.foldlM f s = pure (xs.foldl g s) := by
  induction xs generalizing s with
  | nil => rfl
  | cons x xs ih =>
    rw [List.foldlM_cons, h x List.mem_cons_self, pure_bind, List.foldl_cons]
    exact ih (fun z hz => h z (List.mem_cons_of_mem x hz)) (g s x)

theorem exists_foldlM_eq_ok {f : σ → α → Except ε σ} {xs : List α}
    (h : ∀ x ∈ xs, ∀ s, ∃ t, f s x = .ok t) (s : σ) : ∃ t, xs.foldlM f s = .ok t := by
  induction xs generalizing s with
  | nil => exact ⟨s, rfl⟩
  | cons x xs ih =>
    obtain ⟨t, ht⟩ := h x List.mem_cons_self s
    obtain ⟨u, hu⟩ := ih (fun z hz => h z (List.mem_cons_of_mem x hz)) t
    refine ⟨u, ?_⟩
    rw [List.foldlM_cons, ht]
    exact hu

/-- What every successful step preserves holds after a traversal that succeeds. -/
theorem foldlM_invariant {f : σ → α → Except ε σ} (P : σ → Prop) {xs : List α}
    (hstep : ∀ x ∈ xs, ∀ s t, P s → f s x = .ok t → P t) {s t : σ} (hs : P s)
    (h : xs.foldlM f s = .ok t) : P t := by
  induction xs generalizing s with
  | nil =>
    cases h
    exact hs
  | cons x xs ih =>
    rw [List.foldlM_cons] at h
    cases hx : f s x with
    | error e =>
      rw [hx] at h
      cases h
    | ok u =>
      rw [hx] at h
      exact ih (fun y hy => hstep y (List.mem_cons_of_mem x hy))
        (hstep x List.mem_cons_self s u hs hx) h

/-- In a traversal that succeeds the steps give the entries of the result. -/
theorem map_eq_of_mapM_eq_ok {f : α → Except ε β} {xs : List α} {ys : List β}
    (h : xs.mapM f = .ok ys) : xs.map f = ys.map .ok := by
  induction xs generalizing ys with
  | nil =>
    cases h
    rfl
  | cons x xs ih =>
    rw [List.mapM_cons] at h
    cases hx : f x with
    | error e =>
      rw [hx] at h
      cases h
    | ok y =>
      cases hxs : xs.mapM f with
      | error e =>
        rw [hx, hxs] at h
        cases h
      | ok zs =>
        rw [hx, hxs] at h
        cases h
        rw [List.map_cons, List.map_cons, hx, ih hxs]

theorem exists_of_mapM_eq_ok {f : α → Except ε β} {xs : List α} {ys : List β}
    (h : xs.mapM f = .ok ys) : ∀ x ∈ xs, ∃ y, f x = .ok y := by
  intro x hx
  have hmem := List.mem_map_of_mem (f := f) hx
  rw [map_eq_of_mapM_eq_ok h] at hmem
  obtain ⟨y, -, hy⟩ := List.mem_map.mp hmem
  exact ⟨y, hy.symm⟩

/-- Steps that succeed with the entries of a list make a traversal that gives the list. -/
theorem mapM_eq_ok {f : α → Except ε β} {xs : List α} {ys : List β}
    (hlength : xs.length = ys.length)
    (h : ∀ (i : Nat) x y, xs[i]? = some x → ys[i]? = some y → f x = .ok y) :
    xs.mapM f = .ok ys := by
  induction xs generalizing ys with
  | nil =>
    obtain rfl := List.eq_nil_of_length_eq_zero hlength.symm
    rfl
  | cons x xs ih =>
    cases ys with
    | nil => cases hlength
    | cons y ys =>
      have hrest : xs.mapM f = .ok ys :=
        ih (Nat.succ.inj hlength) fun i x' y' hx hy => h (i + 1) x' y' hx hy
      rw [List.mapM_cons, h 0 x y rfl rfl, hrest]
      rfl

/-- A traversal stops at the first step that fails. -/
theorem mapM_eq_error {f : α → Except ε β} {before after : List α} {x : α} {e : ε}
    (hbefore : ∀ y ∈ before, ∃ z, f y = .ok z) (hx : f x = .error e) :
    (before ++ x :: after).mapM f = .error e := by
  induction before with
  | nil =>
    rw [List.nil_append, List.mapM_cons, hx]
    rfl
  | cons y before ih =>
    obtain ⟨z, hz⟩ := hbefore y List.mem_cons_self
    rw [List.cons_append, List.mapM_cons, hz,
      ih fun y hy => hbefore y (List.mem_cons_of_mem _ hy)]
    rfl

/-- In a traversal that succeeds every step does. -/
theorem exists_of_foldlM_eq_ok {f : σ → α → Except ε σ} {xs : List α} {s t : σ}
    (h : xs.foldlM f s = .ok t) : ∀ x ∈ xs, ∃ u v, f u x = .ok v := by
  induction xs generalizing s with
  | nil => exact nofun
  | cons x xs ih =>
    rw [List.foldlM_cons] at h
    cases hx : f s x with
    | error e =>
      rw [hx] at h
      cases h
    | ok u =>
      rw [hx] at h
      exact List.forall_mem_cons.mpr ⟨⟨s, u, hx⟩, ih h⟩

/-- A traversal stops at the first step that fails, wherever the steps before it lead. -/
theorem foldlM_eq_error {f : σ → α → Except ε σ} {before after : List α} {x : α} {e : ε}
    (hbefore : ∀ y ∈ before, ∀ s, ∃ t, f s y = .ok t) (hx : ∀ s, f s x = .error e) (s : σ) :
    (before ++ x :: after).foldlM f s = .error e := by
  obtain ⟨t, ht⟩ := exists_foldlM_eq_ok hbefore s
  rw [List.foldlM_append, ht]
  show List.foldlM f t (x :: after) = .error e
  rw [List.foldlM_cons, hx]
  rfl

/-- A traversal that fails does so at one of its steps. -/
theorem exists_of_foldlM_eq_error {f : σ → α → Except ε σ} {xs : List α} {s : σ} {e : ε}
    (h : xs.foldlM f s = .error e) : ∃ x ∈ xs, ∃ t, f t x = .error e := by
  induction xs generalizing s with
  | nil => cases h
  | cons x xs ih =>
    rw [List.foldlM_cons] at h
    cases hx : f s x with
    | error e' =>
      rw [hx] at h
      cases h
      exact ⟨x, List.mem_cons_self, s, hx⟩
    | ok t =>
      rw [hx] at h
      obtain ⟨y, hy, u, hu⟩ := ih h
      exact ⟨y, List.mem_cons_of_mem x hy, u, hu⟩

end

end PulseFit
