import PulseFit.Proofs.Model.Row

/-!
# Proofs.Model.Reading — what reading a model key does

After some characters the pulses read so far are the row that these characters spell without the
letters of the lens.  One character either keeps this up or cannot continue to a row (`scan_cons`).
So a text is read as `pulses` exactly if it spells their row (`scan_eq_ok_iff`), and reading stops
at the first character whose beginning spells none (`scan_eq_error`).
-/

namespace PulseFit.Model

/-- What is wrong with a character behind a beginning that is in order. -/
def offence (front : List Char) (x : Char) : ModelError :=
  if isResidualLetter x then
    if front.any isPulseLetter then .duplicateResidual (front.countP isPulseLetter)
    else .orphanResidual front.length x
  else .unknownCharacter front.length x

/-- The pulses read and the pulse letters read are equally many. -/
theorem countP_eq_length {front : List Char} {done : List Pulse}
    (h : row done.reverse = withoutLens front) : front.countP isPulseLetter = done.length := by
  rw [← countP_withoutLens, ← h, countP_row, List.length_reverse]

theorem any_isPulseLetter {front : List Char} {done : List Pulse}
    (h : row done.reverse = withoutLens front) : front.any isPulseLetter = !done.isEmpty := by
  have hc := countP_eq_length h
  cases done with
  | nil => simpa using hc
  | cons p earlier =>
    have hpos : 0 < front.countP isPulseLetter := by
      rw [hc]
      exact Nat.succ_pos _
    simpa using List.countP_pos_iff.mp hpos

/-- A residual letter directly behind a residual letter does not continue to a row. -/
theorem row_ne_residual_residual (pulses earlier : List Pulse) (s : PulseShape)
    (r r' : ResidualShape) (back : List Char) :
    row pulses ≠ row earlier ++ s.letter :: r.letter :: r'.letter :: back := by
  intro h
  have hb : ∀ t : PulseShape, t.letter ∉ [r.letter] := by
    intro t ht
    exact r.letter_ne_pulseLetter t (List.mem_singleton.mp ht).symm
  have hrow : row pulses = row earlier ++ s.letter :: ([r.letter] ++ r'.letter :: back) := h
  have hnil := (residual_of_row hb hrow).1
  simp at hnil

/-- One character: the pulses read take it up, or no row begins like this and the error says why. -/
theorem scan_cons {front : List Char} {done : List Pulse}
    (h : row done.reverse = withoutLens front) (x : Char) (rest : List Char) :
    (∃ done', row done'.reverse = withoutLens (front ++ [x]) ∧
      scan front.length done (x :: rest) = scan (front ++ [x]).length done' rest) ∨
    ((∀ pulses back, row pulses ≠ withoutLens (front ++ [x]) ++ back) ∧
      scan front.length done (x :: rest) = .error (offence front x)) := by
  have hnext : (front ++ [x]).length = front.length + 1 := by simp
  rw [withoutLens_append, ← h, hnext]
  rw [scan]
  by_cases hL : x = lensLetter
  · subst hL
    exact .inl ⟨done, by simp, by simp⟩
  rw [if_neg hL]
  cases hs : PulseShape.ofLetter? x with
  | some s =>
    obtain rfl := PulseShape.eq_letter_of_ofLetter? hs
    exact .inl ⟨⟨s, none⟩ :: done, by simp, rfl⟩
  | none =>
    cases hr : ResidualShape.ofLetter? x with
    | none =>
      have hx : isResidualLetter x = false := by
        rw [Bool.eq_false_iff]
        intro hx
        obtain ⟨r, rfl⟩ := isResidualLetter_iff.mp hx
        rw [ResidualShape.ofLetter?_letter] at hr
        cases hr
      refine .inr ⟨fun pulses back he => ?_, by simp [offence, hx]⟩
      have hmem : x ∈ row pulses := by
        rw [he, withoutLens_cons hL]
        simp
      obtain ⟨s, rfl⟩ | ⟨r, rfl⟩ := letter_of_mem_row hmem
      · rw [PulseShape.ofLetter?_letter] at hs
        cases hs
      · simp at hx
    | some r =>
      obtain rfl := ResidualShape.eq_letter_of_ofLetter? hr
      cases done with
      | nil =>
        have hany : front.any isPulseLetter = false := any_isPulseLetter h
        refine .inr ⟨fun pulses back he => ?_, by simp [offence, hany]⟩
        exact row_ne_residual_cons pulses r back (by simpa using he)
      | cons latest earlier =>
        obtain ⟨shape, residual⟩ := latest
        cases residual with
        | none => exact .inl ⟨⟨shape, some r⟩ :: earlier, by simp, rfl⟩
        | some r' =>
          have hany : front.any isPulseLetter = true := any_isPulseLetter h
          have hcount := countP_eq_length h
          refine .inr ⟨fun pulses back he => ?_, by simp [offence, hany, hcount]⟩
          exact row_ne_residual_residual pulses earlier.reverse shape r' r back (by simpa using he)

/-- Reading gives the pulses whose row the text spells. -/
theorem scan_eq_ok_iff {front : List Char} {done : List Pulse}
    (h : row done.reverse = withoutLens front) {text : List Char} {pulses : List Pulse} :
    scan front.length done text = .ok pulses ↔ row pulses = withoutLens (front ++ text) := by
  induction text generalizing front done with
  | nil =>
    rw [scan, List.append_nil, ← h]
    constructor
    · intro he
      cases he
      rfl
    · intro he
      rw [row_injective he]
  | cons x rest ih =>
    have happ : front ++ x :: rest = (front ++ [x]) ++ rest := by simp
    rw [happ]
    obtain ⟨done', hrow, hscan⟩ | ⟨hno, hscan⟩ := scan_cons h x rest
    · rw [hscan, ih hrow]
    · rw [hscan, withoutLens_append]
      constructor
      · intro he
        cases he
      · intro he
        exact absurd he (hno pulses _)

/-- Reading fails at the first character with which no row begins. -/
theorem scan_eq_error {front : List Char} {done : List Pulse}
    (h : row done.reverse = withoutLens front) {text : List Char} {e : ModelError}
    (he : scan front.length done text = .error e) :
    ∃ before x after pulses, front ++ text = before ++ x :: after ∧
      row pulses = withoutLens before ∧ (∀ others, row others ≠ withoutLens (before ++ [x])) ∧
      e = offence before x := by
  induction text generalizing front done with
  | nil =>
    rw [scan] at he
    cases he
  | cons x rest ih =>
    obtain ⟨done', hrow, hscan⟩ | ⟨hno, hscan⟩ := scan_cons h x rest
    · rw [hscan] at he
      obtain ⟨before, y, after, pulses, happ, hp⟩ := ih hrow he
      exact ⟨before, y, after, pulses, by rw [← happ]; simp, hp⟩
    · rw [hscan] at he
      cases he
      refine ⟨front, x, rest, done.reverse, rfl, h, fun others ho => ?_, rfl⟩
      exact hno others [] (by rw [ho, List.append_nil])

theorem row_start : row ([] : List Pulse).reverse = withoutLens [] := rfl

theorem scan_start_eq_ok_iff {text : List Char} {pulses : List Pulse} :
    scan 0 [] text = .ok pulses ↔ row pulses = withoutLens text :=
  scan_eq_ok_iff row_start

/-- A text is decoded to the lensed or unlensed row that it spells, under no name. -/
theorem decodeLetters_eq_ok_iff {text : List Char} {m : Model} :
    decodeLetters text = .ok m ↔
      row m.pulses = withoutLens text ∧ m.lensed = text.contains lensLetter ∧ m.name = none := by
  rw [decodeLetters]
  constructor
  · intro h
    cases hs : scan 0 [] text with
    | error e =>
      rw [hs] at h
      cases h
    | ok pulses =>
      rw [hs] at h
      cases h
      exact ⟨scan_start_eq_ok_iff.mp hs, rfl, rfl⟩
  · rintro ⟨hrow, hlensed, hname⟩
    obtain ⟨lensed, pulses, name⟩ := m
    obtain rfl : lensed = text.contains lensLetter := hlensed
    obtain rfl : name = none := hname
    have hs : scan 0 [] text = .ok pulses := scan_start_eq_ok_iff.mpr hrow
    rw [hs]
    rfl

end PulseFit.Model
