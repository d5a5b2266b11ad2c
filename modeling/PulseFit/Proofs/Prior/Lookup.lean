import PulseFit.Proofs.Prior.Overwrite

/-!
# Proofs.Prior.Lookup — the names under which distributions are found and overwritten

A distribution is found under the text of its key and under no other name (`isSome_get?_iff`).  A
name under which one is overwritten is read first, and zeros may stand before a number that is read:
under `start_01_a` the distribution of `start_1_a` is overwritten, but none is ever found.  Names
without such zeros are those under which a distribution is found, and whatever was overwritten
before, overwriting changes what is found under one name and nothing else (`overwrite_by_name`).
-/

namespace PulseFit.Prior

variable {α : Type}

/-! ## What is found -/

/-- A distribution is found under the names of the prior. -/
theorem isSome_get?_iff {r : Prior α} {name : String} :
    (r.get? name).isSome = true ↔ name ∈ r.names := by
  simp only [get?, Option.isSome_map, List.find?_isSome, beq_iff_eq, names, List.mem_map]

theorem isSome_get?_text_iff {r : Prior α} {k : Key} :
    (r.get? k.text).isSome = true ↔ k ∈ r.entries.map (·.key) := by
  rw [isSome_get?_iff, names, List.mem_map, List.mem_map]
  exact exists_congr fun e => and_congr_right fun _ => ⟨Key.text_injective, congrArg Key.text⟩

/-- Under the name of the key stands its new distribution. -/
theorem find?_replace {key : Key} {entries : List (Entry α)} (h : key ∈ entries.map (·.key))
    (d : Marginal α) :
    (replace key d entries).find? (·.name == key.text) = some ⟨key, d⟩ := by
  induction entries with
  | nil => cases h
  | cons e entries ih =>
    by_cases he : e.key = key
    · rw [replace, if_pos he, List.find?_cons_of_pos (by simp [Entry.name])]
    · have hname : e.name ≠ key.text := fun hname => he (Key.text_injective hname)
      have htail : key ∈ entries.map (·.key) := (List.mem_cons.mp h).resolve_left (Ne.symm he)
      rw [replace, if_neg he, List.find?_cons_of_neg (by simpa using hname), ih htail]

/-- Under other names all is as it was. -/
theorem find?_replace_of_ne {key : Key} {name : String} (h : name ≠ key.text) (d : Marginal α)
    (entries : List (Entry α)) :
    (replace key d entries).find? (·.name == name) = entries.find? (·.name == name) := by
  induction entries with
  | nil => rfl
  | cons e entries ih =>
    by_cases he : e.key = key
    · rw [replace, if_pos he, List.find?_cons_of_neg (by simpa [Entry.name] using h.symm),
        List.find?_cons_of_neg (by simpa [Entry.name, he] using h.symm)]
    · rw [replace, if_neg he, List.find?_cons, List.find?_cons, ih]

/-! ## What overwriting changes -/

/-- The distribution that is found under a name is another, and all else is as it was. -/
structure Overwritten (r r' : Prior α) (name : String) (d : Marginal α) : Prop extends
    Kept r r' where
  attempts : r'.attempts = r.attempts
  found : ∀ other, r'.get? other = if other = name then some d else r.get? other

/-- Overwriting changes the distribution of the key that the name is read as. -/
theorem overwritten_of_overwrite {r r' : Prior α} {name : String} {d : Marginal α} {k : Key}
    (hname : Key.parse name = .ok k) (h : r.overwrite name d = .ok r') :
    Overwritten r r' k.text d := by
  obtain ⟨k', hk', hmem, rfl⟩ := overwrite_eq_ok_iff.mp h
  obtain rfl : k' = k := Except.ok.inj (hk'.symm.trans hname)
  refine ⟨overwrite_kept h, rfl, fun other => ?_⟩
  unfold get?
  by_cases hother : other = k'.text
  · rw [if_pos hother, hother, find?_replace hmem]
    rfl
  · rw [if_neg hother, find?_replace_of_ne hother]

/-- What is read as a parameter of the prior is overwritten, and nothing else. -/
theorem overwrite_of_parse {r : Prior α} {name : String} {k : Key} (hname : Key.parse name = .ok k)
    (hk : (r.get? k.text).isSome = true) (d : Marginal α) :
    ∃ r', r.overwrite name d = .ok r' ∧ Overwritten r r' k.text d := by
  have hoverwrite : r.overwrite name d = .ok { r with entries := replace k d r.entries } :=
    overwrite_eq_ok_iff.mpr ⟨k, hname, isSome_get?_text_iff.mp hk, rfl⟩
  exact ⟨_, hoverwrite, overwritten_of_overwrite hname hoverwrite⟩

variable [Scalar α] {m : Model} {channels : List Channel} {b : Bounds α} {r r' : Prior α}

/-- The parameters of a prior that was built can be read, if its pulses can be counted by a machine
word. -/
theorem numbered_of_isSome_get? (hr : build? m channels b = some (.ok r)) (hkept : Kept r r')
    (hsize : m.size < Key.pulseBound) {k : Key} (hk : (r'.get? k.text).isSome = true) :
    k.Numbered := by
  rw [isSome_get?_text_iff, hkept.keys, keys_of_build? hr, mem_modelKeys] at hk
  obtain ⟨ch, -, hk⟩ := hk
  exact Model.numbered_of_mem_keys hsize hk

/-- A prior that was built, after any attempts to overwrite distributions.  A distribution that is
found under a name is overwritten under it.  Under a name with zeros before the number of a pulse
none is found, but that of the name without zeros is overwritten.  Under all other names overwriting
fails, which leaves the prior as it is. -/
theorem overwrite_by_name (hr : build? m channels b = some (.ok r))
    (hsize : m.size < Key.pulseBound) {ds : List (String × Marginal α)}
    (hds : r.overwriteEach ds = r') (d : Marginal α) :
    (∀ name, (r'.get? name).isSome = true →
      ∃ r'', r'.overwrite name d = .ok r'' ∧ Overwritten r' r'' name d) ∧
    (∀ zeros q i ch, 0 < zeros →
      r'.get? (Key.padded zeros q i ch) = none ∧
      ((r'.get? (Key.shape q i ch).text).isSome = true →
        ∃ r'', r'.overwrite (Key.padded zeros q i ch) d = .ok r'' ∧
          Overwritten r' r'' (Key.shape q i ch).text d)) ∧
    ∀ name, r'.get? name = none →
      (∀ zeros q i ch, 0 < zeros → name = Key.padded zeros q i ch →
        r'.get? (Key.shape q i ch).text = none) →
      (∃ e, r'.overwrite name d = .error e) ∧ r'.overwriteOrKeep name d = r' := by
  have hkept : Kept r r' := hds ▸ overwriteEach_kept r ds
  refine ⟨fun name hname => ?_, fun zeros q i ch hzeros => ⟨?_, fun hk => ?_⟩,
    fun name hname hpadded => ?_⟩
  · obtain ⟨e, -, rfl⟩ := List.mem_map.mp (isSome_get?_iff.mp hname)
    have hnumbered := numbered_of_isSome_get? hr hkept hsize hname
    exact overwrite_of_parse (Key.parse_text hnumbered) hname d
  · rw [← Option.not_isSome_iff_eq_none]
    intro hfound
    obtain ⟨e, -, hname⟩ := List.mem_map.mp (isSome_get?_iff.mp hfound)
    exact Key.padded_ne_text hzeros q i ch e.key hname.symm
  · have hnumbered := numbered_of_isSome_get? hr hkept hsize hk
    exact overwrite_of_parse (Key.parse_padded hnumbered) hk d
  · cases h : r'.overwrite name d with
    | error e => exact ⟨⟨e, rfl⟩, overwriteOrKeep_of_error h⟩
    | ok r'' =>
      obtain ⟨k, hk, hmem, -⟩ := overwrite_eq_ok_iff.mp h
      have hfound := isSome_get?_text_iff.mpr hmem
      obtain ⟨-, rfl | ⟨zeros, q, i, ch, hzeros, rfl, rfl⟩⟩ := Key.parse_eq_ok_iff_text.mp hk
      · rw [hname] at hfound
        cases hfound
      · rw [hpadded zeros q i ch hzeros rfl] at hfound
        cases hfound

/-- A pulse with a residual and another pulse in two channels, after the scale of one was
overwritten and a name that is none of a parameter was tried. -/
theorem overwrite_by_name_FsG :
    ∃ r r', build? ⟨true, [⟨.fred, some .sineGaussian⟩, ⟨.gaussian, none⟩], none⟩ [.a, .b]
        tenBounds = some (.ok r) ∧
      r.overwriteEach [("scale_2_a", .uniform (.real 1) (.real 2) (.real 0)),
        ("phi_1_a", .uniform (.real 0) (.real 1) (.real 0))] = r' ∧
      r'.get? "start_02_b" = none ∧
      ∃ r'', r'.overwrite "start_02_b" (.uniform (.real 0) (.real 1) (.real 0)) = .ok r'' ∧
        r''.get? "start_2_b" = some (.uniform (.real 0) (.real 1) (.real 0)) := by
  obtain ⟨r, hr⟩ := exists_build? validate_tenBounds
    ⟨true, [⟨.fred, some .sineGaussian⟩, ⟨.gaussian, none⟩], none⟩ [.a, .b]
  obtain ⟨r', hds⟩ : ∃ r', r.overwriteEach [("scale_2_a", .uniform (.real 1) (.real 2) (.real 0)),
      ("phi_1_a", .uniform (.real 0) (.real 1) (.real 0))] = r' := ⟨_, rfl⟩
  obtain ⟨-, hpadded, -⟩ := overwrite_by_name hr (by decide) hds
    (.uniform (.real 0) (.real 1) (.real 0))
  obtain ⟨hnone, hoverwrite⟩ := hpadded 1 .start 2 .b Nat.one_pos
  have hstart : Key.shape .start 2 .b ∈ r'.entries.map (·.key) := by
    rw [← hds, (overwriteEach_kept r _).keys, keys_of_build? hr]
    decide
  obtain ⟨r'', hr'', hchanged⟩ := hoverwrite (isSome_get?_text_iff.mpr hstart)
  have hname : Key.padded 1 .start 2 .b = "start_02_b" := by decide
  have htext : (Key.shape .start 2 .b).text = "start_2_b" := by decide
  rw [hname] at hnone hr''
  refine ⟨r, r', hr, hds, hnone, r'', hr'', ?_⟩
  rw [← htext, hchanged.found, if_pos rfl]

/-- The distribution of a start is overwritten under a name under which none is found, before or
after. -/
theorem overwrite_unfound_G :
    ∃ r r', build? ⟨false, [⟨.gaussian, none⟩], none⟩ [.a] tenBounds = some (.ok r) ∧
      r.get? "start_01_a" = none ∧
      r.overwrite "start_01_a" (.uniform (.real 0) (.real 1) (.real 0)) = .ok r' ∧
      r'.get? "start_01_a" = none ∧
      r'.get? "start_1_a" = some (.uniform (.real 0) (.real 1) (.real 0)) := by
  obtain ⟨r, hr⟩ := exists_build? validate_tenBounds
    ⟨false, [⟨.gaussian, none⟩], none⟩ [.a]
  have hstart : Key.shape .start 1 .a ∈ r.entries.map (·.key) := by
    rw [keys_of_build? hr]
    decide
  have hread : Key.parse "start_01_a" = .ok (.shape .start 1 .a) := rfl
  have htext : (Key.shape .start 1 .a).text = "start_1_a" := by decide
  have hunfound : r.get? "start_01_a" = none := by
    rw [← Option.not_isSome_iff_eq_none, isSome_get?_iff, names_of_build? hr]
    decide
  obtain ⟨r', hr', hchanged⟩ := overwrite_of_parse hread (isSome_get?_text_iff.mpr hstart)
    (.uniform (.real 0) (.real 1) (.real 0))
  rw [htext] at hchanged
  refine ⟨r, r', hr, hunfound, hr', ?_, ?_⟩
  · rw [hchanged.found, if_neg (by decide), hunfound]
  · rw [hchanged.found, if_pos rfl]

end PulseFit.Prior
