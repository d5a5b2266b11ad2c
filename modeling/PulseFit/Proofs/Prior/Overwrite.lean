import PulseFit.Proofs.Prior.Build

/-!
# Proofs.Prior.Overwrite — what overwriting leaves as it is

Overwriting a distribution changes neither the parameters, nor their order, nor the chains; so a
prior on which distributions were overwritten, any number of them, still has the parameters and
chains with which it was built (`overwriteAll_kept`), and so it has if some attempts failed
(`overwriteEach_kept`).  Of several distributions that are given for a parameter the last one holds
(`getElem?_idxOf_overwriteEach`).
-/

namespace PulseFit.Prior

variable {α : Type} {r r' : Prior α}

theorem map_key_replace (key : Key) (d : Marginal α) (entries : List (Entry α)) :
    (replace key d entries).map (·.key) = entries.map (·.key) := by
  induction entries with
  | nil => rfl
  | cons e entries ih =>
    by_cases he : e.key = key
    · rw [replace, if_pos he, List.map_cons, List.map_cons, he]
    · rw [replace, if_neg he, List.map_cons, List.map_cons, ih]

/-- An entry is the new one or was there. -/
theorem mem_replace {key : Key} {d : Marginal α} {entries : List (Entry α)} {e : Entry α}
    (h : e ∈ replace key d entries) : e = ⟨key, d⟩ ∨ e ∈ entries := by
  induction entries with
  | nil => cases h
  | cons first entries ih =>
    by_cases hfirst : first.key = key
    · rw [replace, if_pos hfirst] at h
      exact (List.mem_cons.mp h).imp_right (List.mem_cons_of_mem first)
    · rw [replace, if_neg hfirst] at h
      rcases List.mem_cons.mp h with rfl | h
      · exact .inr List.mem_cons_self
      · exact (ih h).imp_right (List.mem_cons_of_mem first)

/-- The new entry stands at the first place of its key. -/
theorem getElem?_idxOf_replace {key : Key} {entries : List (Entry α)}
    (h : key ∈ entries.map (·.key)) (d : Marginal α) :
    (replace key d entries)[(entries.map (·.key)).idxOf key]? = some ⟨key, d⟩ := by
  induction entries with
  | nil => cases h
  | cons e entries ih =>
    by_cases he : e.key = key
    · rw [replace, if_pos he, List.map_cons, he, List.idxOf_cons_self]
      rfl
    · have htail : key ∈ entries.map (·.key) := (List.mem_cons.mp h).resolve_left (Ne.symm he)
      rw [replace, if_neg he, List.map_cons, List.idxOf_cons_ne _ he, List.getElem?_cons_succ,
        ih htail]

/-- Entries of other keys stay where they are. -/
theorem getElem?_replace_of_ne {key : Key} {d : Marginal α} {entries : List (Entry α)} {i : Nat}
    {e : Entry α} (he : entries[i]? = some e) (hne : e.key ≠ key) :
    (replace key d entries)[i]? = some e := by
  induction entries generalizing i with
  | nil => cases he
  | cons first entries ih =>
    by_cases hfirst : first.key = key
    · rw [replace, if_pos hfirst]
      cases i with
      | zero =>
        obtain rfl := Option.some.inj he
        exact absurd hfirst hne
      | succ i => exact he
    · rw [replace, if_neg hfirst]
      cases i with
      | zero => exact he
      | succ i => exact ih he

/-- What overwriting leaves as it is. -/
structure Kept (r r' : Prior α) : Prop where
  keys : r'.entries.map (·.key) = r.entries.map (·.key)
  chains : r'.chains = r.chains

theorem Kept.trans {r'' : Prior α} (h : Kept r r') (h' : Kept r' r'') : Kept r r'' :=
  ⟨h'.keys.trans h.keys, h'.chains.trans h.chains⟩

theorem Kept.size (h : Kept r r') : r'.size = r.size := by
  have hlength := congrArg List.length h.keys
  rwa [List.length_map, List.length_map] at hlength

theorem Kept.constraintNames (h : Kept r r') : r'.constraintNames = r.constraintNames := by
  rw [Prior.constraintNames, Prior.constraintNames, h.chains]

/-- Overwriting succeeds for the names that are read as a parameter of the prior. -/
theorem overwrite_eq_ok_iff {name : String} {d : Marginal α} :
    r.overwrite name d = .ok r' ↔ ∃ k, Key.parse name = .ok k ∧ k ∈ r.entries.map (·.key) ∧
      r' = { r with entries := replace k d r.entries } := by
  unfold overwrite
  cases hkey : Key.parse name with
  | error e => exact iff_of_false nofun fun ⟨_, hk, _⟩ => nomatch hk
  | ok k =>
    have hany : r.entries.any (·.key == k) = true ↔ k ∈ r.entries.map (·.key) := by
      simp [List.mem_map]
    simp only [Except.ok.injEq, exists_eq_left', ← hany]
    split
    · next h => simp [h, eq_comm]
    · next h => simp [h]

/-- One distribution is overwritten. -/
theorem overwrite_kept {name : String} {d : Marginal α} (h : r.overwrite name d = .ok r') :
    Kept r r' := by
  obtain ⟨k, -, -, rfl⟩ := overwrite_eq_ok_iff.mp h
  exact ⟨map_key_replace k d r.entries, rfl⟩

/-- The distribution of every parameter that can be read may be overwritten. -/
theorem exists_overwrite {k : Key} (hk : k ∈ r.entries.map (·.key)) (hnumbered : k.Numbered)
    (d : Marginal α) : ∃ r', r.overwrite k.text d = .ok r' :=
  ⟨_, overwrite_eq_ok_iff.mpr ⟨k, Key.parse_text hnumbered, hk, rfl⟩⟩

/-- Distributions overwritten one after the other. -/
def overwriteAll (r : Prior α) (ds : List (String × Marginal α)) :
    Except (PriorError α) (Prior α) :=
  ds.foldlM (fun r change => r.overwrite change.1 change.2) r

theorem overwriteAll_singleton {name : String} {d : Marginal α} (h : r.overwrite name d = .ok r') :
    r.overwriteAll [(name, d)] = .ok r' := by
  rw [overwriteAll, List.foldlM_cons, h]
  rfl

/-- Any number of distributions is overwritten. -/
theorem overwriteAll_kept {ds : List (String × Marginal α)} (h : r.overwriteAll ds = .ok r') :
    Kept r r' := by
  exact foldlM_invariant (Kept r) (fun d _ s t hs hd => hs.trans (overwrite_kept hd)) ⟨rfl, rfl⟩ h

/-! ## Attempts to overwrite -/

/-- The prior after an attempt to overwrite a distribution; it is as before if the attempt fails. -/
def overwriteOrKeep (r : Prior α) (name : String) (d : Marginal α) : Prior α :=
  (r.overwrite name d).toOption.getD r

/-- The prior after attempts to overwrite distributions, some of which may fail. -/
def overwriteEach (r : Prior α) (ds : List (String × Marginal α)) : Prior α :=
  ds.foldl (fun r change => r.overwriteOrKeep change.1 change.2) r

theorem overwriteOrKeep_of_ok {name : String} {d : Marginal α} (h : r.overwrite name d = .ok r') :
    r.overwriteOrKeep name d = r' := by
  rw [overwriteOrKeep, h]
  rfl

theorem overwriteOrKeep_of_error {name : String} {d : Marginal α} {e : PriorError α}
    (h : r.overwrite name d = .error e) : r.overwriteOrKeep name d = r := by
  rw [overwriteOrKeep, h]
  rfl

/-- A name that is read as a parameter of the prior comes first. -/
theorem overwriteEach_cons {name : String} {k : Key} (hname : Key.parse name = .ok k)
    (hk : k ∈ r.entries.map (·.key)) (d : Marginal α) (ds : List (String × Marginal α)) :
    r.overwriteEach ((name, d) :: ds) =
      overwriteEach { r with entries := replace k d r.entries } ds := by
  have hoverwrite : r.overwrite name d = .ok { r with entries := replace k d r.entries } :=
    overwrite_eq_ok_iff.mpr ⟨k, hname, hk, rfl⟩
  rw [overwriteEach, List.foldl_cons, overwriteOrKeep_of_ok hoverwrite]
  rfl

/-- What every attempt that succeeds preserves holds after all of them. -/
theorem overwriteEach_invariant {P : Prior α → Prop} {ds : List (String × Marginal α)}
    (hstep : ∀ change ∈ ds, ∀ s t, P s → s.overwrite change.1 change.2 = .ok t → P t) (hr : P r) :
    P (r.overwriteEach ds) := by
  induction ds generalizing r with
  | nil => exact hr
  | cons change ds ih =>
    have hrest := fun d hd => hstep d (List.mem_cons_of_mem change hd)
    show P ((r.overwriteOrKeep change.1 change.2).overwriteEach ds)
    cases h : r.overwrite change.1 change.2 with
    | ok t =>
      rw [overwriteOrKeep_of_ok h]
      exact ih hrest (hstep change List.mem_cons_self r t hr h)
    | error e =>
      rw [overwriteOrKeep_of_error h]
      exact ih hrest hr

theorem overwriteEach_kept (r : Prior α) (ds : List (String × Marginal α)) :
    Kept r (r.overwriteEach ds) :=
  overwriteEach_invariant (fun _ _ _ _ hs ht => hs.trans (overwrite_kept ht)) ⟨rfl, rfl⟩

/-- The last distribution that is given for a parameter is the one that its first entry has. -/
theorem getElem?_idxOf_overwriteEach {name : String} {k : Key} (hname : Key.parse name = .ok k)
    (hk : k ∈ r.entries.map (·.key)) (before : List (String × Marginal α)) (d : Marginal α)
    {after : List (String × Marginal α)} (hafter : ∀ change ∈ after, Key.parse change.1 ≠ .ok k) :
    (r.overwriteEach (before ++ (name, d) :: after)).entries[(r.entries.map (·.key)).idxOf k]? =
      some ⟨k, d⟩ := by
  have hkeys := (overwriteEach_kept r before).keys
  have hsplit : r.overwriteEach (before ++ (name, d) :: after) =
      (r.overwriteEach before).overwriteEach ((name, d) :: after) := List.foldl_append
  rw [← hkeys] at hk
  rw [hsplit, overwriteEach_cons hname hk, ← hkeys]
  -- later changes are of other parameters
  refine overwriteEach_invariant
    (P := fun s => s.entries[((r.overwriteEach before).entries.map (·.key)).idxOf k]? = some ⟨k, d⟩)
    (fun change hchange s t hs ht => ?_) (getElem?_idxOf_replace hk d)
  obtain ⟨k', hk', -, rfl⟩ := overwrite_eq_ok_iff.mp ht
  refine getElem?_replace_of_ne hs ?_
  rintro rfl
  exact hafter change hchange hk'

/-- Two parameters that are overwritten one after the other have the two distributions. -/
theorem getElem?_overwriteEach_pair {name name' : String} {k k' : Key}
    (hname : Key.parse name = .ok k) (hname' : Key.parse name' = .ok k') (hne : k' ≠ k)
    (hk : k ∈ r.entries.map (·.key)) (hk' : k' ∈ r.entries.map (·.key)) (d d' : Marginal α) :
    (r.overwriteEach [(name, d), (name', d')]).entries[(r.entries.map (·.key)).idxOf k]? =
        some ⟨k, d⟩ ∧
      (r.overwriteEach [(name, d), (name', d')]).entries[(r.entries.map (·.key)).idxOf k']? =
        some ⟨k', d'⟩ := by
  constructor
  · refine getElem?_idxOf_overwriteEach hname hk [] d fun change hchange => ?_
    rw [List.mem_singleton.mp hchange, hname', ne_eq, Except.ok.injEq]
    exact hne
  · exact getElem?_idxOf_overwriteEach hname' hk' [(name, d)] d' nofun

/-! ## Another number of attempts -/

theorem withAttempts?_eq_some_iff {attempts : Nat} : r.withAttempts? attempts = some r' ↔
    ∃ hpos : 0 < attempts, r' = { r with attempts, attempts_pos := hpos } := by
  unfold withAttempts?
  constructor
  · intro h
    split at h
    · next hpos => exact ⟨hpos, (Option.some.inj h).symm⟩
    · cases h
  · rintro ⟨hpos, rfl⟩
    exact dif_pos hpos

theorem entries_of_withAttempts? {attempts : Nat} (h : r.withAttempts? attempts = some r') :
    r'.entries = r.entries := by
  obtain ⟨_, rfl⟩ := withAttempts?_eq_some_iff.mp h
  rfl

/-- The number of attempts is another. -/
theorem withAttempts?_kept {attempts : Nat} (h : r.withAttempts? attempts = some r') :
    Kept r r' := by
  obtain ⟨_, rfl⟩ := withAttempts?_eq_some_iff.mp h
  exact ⟨rfl, rfl⟩

end PulseFit.Prior
