import PulseFit.Model.Letters

/-!
# Proofs.Model.Row — the letters of a row of pulses

`row pulses` writes pulses one after the other, each as its letter and the letter of its residual.
A row can be read in one way only (`row_injective`), every beginning of a row is a row
(`exists_row_of_append`), it can be cut at any pulse letter (`exists_pulse_of_row`), and a residual
letter stands directly behind the letter of its pulse (`residual_of_row`).
-/

namespace PulseFit

namespace PulseShape

theorem ofLetter?_letter (s : PulseShape) : ofLetter? s.letter = some s := by cases s <;> rfl

theorem eq_letter_of_ofLetter? {x : Char} {s : PulseShape} (h : ofLetter? x = some s) :
    x = s.letter := by
  have hs := List.find?_some h
  exact (eq_of_beq hs).symm

theorem letter_injective {s t : PulseShape} (h : s.letter = t.letter) : s = t := by
  have hs := ofLetter?_letter s
  rw [h, ofLetter?_letter] at hs
  exact (Option.some.inj hs).symm

theorem letter_ne_lensLetter (s : PulseShape) : s.letter ≠ Model.lensLetter := by
  cases s <;> decide

end PulseShape

namespace ResidualShape

theorem ofLetter?_letter (r : ResidualShape) : ofLetter? r.letter = some r := by cases r <;> rfl

theorem eq_letter_of_ofLetter? {x : Char} {r : ResidualShape} (h : ofLetter? x = some r) :
    x = r.letter := by
  have hr := List.find?_some h
  exact (eq_of_beq hr).symm

theorem letter_injective {r t : ResidualShape} (h : r.letter = t.letter) : r = t := by
  have hr := ofLetter?_letter r
  rw [h, ofLetter?_letter] at hr
  exact (Option.some.inj hr).symm

theorem letter_ne_lensLetter (r : ResidualShape) : r.letter ≠ Model.lensLetter := by
  cases r <;> decide

theorem letter_ne_pulseLetter (r : ResidualShape) (s : PulseShape) : r.letter ≠ s.letter := by
  cases r <;> cases s <;> decide

end ResidualShape

namespace Model

/-- The letters of pulses, one pulse after the other. -/
def row (pulses : List Pulse) : List Char := pulses.flatMap pulseLetters

/-- A text without the letters of the lens. -/
def withoutLens (text : List Char) : List Char := text.filter (· ≠ lensLetter)

@[simp] theorem row_nil : row [] = [] := rfl

@[simp] theorem row_cons (p : Pulse) (rest : List Pulse) :
    row (p :: rest) =
      p.shape.letter :: ((p.residual.map ResidualShape.letter).toList ++ row rest) :=
  rfl

@[simp] theorem row_append (front back : List Pulse) :
    row (front ++ back) = row front ++ row back :=
  List.flatMap_append

@[simp] theorem withoutLens_nil : withoutLens [] = [] := rfl

@[simp] theorem withoutLens_append (front back : List Char) :
    withoutLens (front ++ back) = withoutLens front ++ withoutLens back :=
  List.filter_append ..

@[simp] theorem withoutLens_lens (rest : List Char) :
    withoutLens (lensLetter :: rest) = withoutLens rest := by
  simp [withoutLens]

theorem withoutLens_cons {x : Char} (h : x ≠ lensLetter) (rest : List Char) :
    withoutLens (x :: rest) = x :: withoutLens rest := by
  simp [withoutLens, h]

@[simp] theorem withoutLens_pulse (s : PulseShape) (rest : List Char) :
    withoutLens (s.letter :: rest) = s.letter :: withoutLens rest :=
  withoutLens_cons s.letter_ne_lensLetter rest

@[simp] theorem withoutLens_residual (r : ResidualShape) (rest : List Char) :
    withoutLens (r.letter :: rest) = r.letter :: withoutLens rest :=
  withoutLens_cons r.letter_ne_lensLetter rest

/-- Every letter of a row is that of a pulse or of a residual. -/
theorem letter_of_mem_row {pulses : List Pulse} {x : Char} (h : x ∈ row pulses) :
    (∃ s : PulseShape, x = s.letter) ∨ ∃ r : ResidualShape, x = r.letter := by
  simp only [row, List.mem_flatMap, pulseLetters, List.mem_cons, Option.mem_toList,
    Option.map_eq_some_iff] at h
  obtain ⟨p, -, rfl | ⟨r, -, rfl⟩⟩ := h
  · exact .inl ⟨_, rfl⟩
  · exact .inr ⟨r, rfl⟩

@[simp] theorem withoutLens_row (pulses : List Pulse) : withoutLens (row pulses) = row pulses := by
  rw [withoutLens, List.filter_eq_self]
  intro x hx
  obtain ⟨s, rfl⟩ | ⟨r, rfl⟩ := letter_of_mem_row hx
  · simpa using s.letter_ne_lensLetter
  · simpa using r.letter_ne_lensLetter

/-- A row is empty or begins with the letter of a pulse. -/
theorem row_ne_residual_cons (pulses : List Pulse) (r : ResidualShape) (text : List Char) :
    row pulses ≠ r.letter :: text := by
  cases pulses with
  | nil => simp
  | cons p rest =>
    intro h
    exact r.letter_ne_pulseLetter p.shape (List.cons.inj h).1.symm

/-- Behind letters none of which is that of a pulse, no residual letter continues to a row. -/
theorem row_ne_append_residual (pulses : List Pulse) {between : List Char}
    (hb : ∀ s : PulseShape, s.letter ∉ between) (r : ResidualShape) (text : List Char) :
    row pulses ≠ between ++ r.letter :: text := by
  cases between with
  | nil => exact row_ne_residual_cons pulses r text
  | cons x between =>
    cases pulses with
    | nil => simp
    | cons p rest =>
      intro h
      exact hb p.shape (by simp [(List.cons.inj h).1])

/-- A row can be read in one way only. -/
theorem row_injective {pulses others : List Pulse} (h : row pulses = row others) :
    pulses = others := by
  induction pulses generalizing others with
  | nil =>
    cases others with
    | nil => rfl
    | cons p rest => simp at h
  | cons p pulses ih =>
    cases others with
    | nil => simp at h
    | cons q others =>
      rw [row_cons, row_cons] at h
      obtain ⟨hs, ht⟩ := List.cons.inj h
      obtain ⟨shape, residual⟩ := p
      obtain ⟨shape', residual'⟩ := q
      obtain rfl : shape = shape' := PulseShape.letter_injective hs
      -- what follows the shape's letter tells whether there is a residual
      cases residual with
      | none =>
        cases residual' with
        | none => rw [ih (by simpa using ht)]
        | some r => exact absurd (by simpa using ht) (row_ne_residual_cons pulses r (row others))
      | some r =>
        cases residual' with
        | none =>
          exact absurd (by simpa using ht.symm) (row_ne_residual_cons others r (row pulses))
        | some r' =>
          have ht' : r.letter = r'.letter ∧ row pulses = row others := by simpa using ht
          rw [ResidualShape.letter_injective ht'.1, ih ht'.2]

/-- Every beginning of a row is a row. -/
theorem exists_row_of_append {pulses : List Pulse} {front back : List Char}
    (h : front ++ back = row pulses) : ∃ before, front = row before := by
  induction pulses generalizing front with
  | nil =>
    obtain ⟨rfl, -⟩ := List.append_eq_nil_iff.mp h
    exact ⟨[], rfl⟩
  | cons p rest ih =>
    cases front with
    | nil => exact ⟨[], rfl⟩
    | cons x front =>
      rw [row_cons] at h
      obtain ⟨hx, ht⟩ := List.cons.inj h
      obtain ⟨shape, residual⟩ := p
      cases residual with
      | none =>
        have ht' : front ++ back = row rest := by simpa using ht
        obtain ⟨before, rfl⟩ := ih ht'
        exact ⟨⟨shape, none⟩ :: before, by simp [hx]⟩
      | some r =>
        cases front with
        | nil => exact ⟨[⟨shape, none⟩], by simp [hx]⟩
        | cons y front =>
          have ht' : y = r.letter ∧ front ++ back = row rest := by simpa using ht
          obtain ⟨before, rfl⟩ := ih ht'.2
          exact ⟨⟨shape, some r⟩ :: before, by simp [hx, ht'.1]⟩

/-- Whether a character is the letter of a pulse shape. -/
def isPulseLetter (x : Char) : Bool := x == 'G' || x == 'F' || x == 'X' || x == 'C'

@[simp] theorem isPulseLetter_pulse (s : PulseShape) : isPulseLetter s.letter = true := by
  cases s <;> rfl

@[simp] theorem isPulseLetter_residual (r : ResidualShape) : isPulseLetter r.letter = false := by
  cases r <;> rfl

@[simp] theorem isPulseLetter_lens : isPulseLetter lensLetter = false := rfl

theorem isPulseLetter_iff {x : Char} : isPulseLetter x = true ↔ ∃ s : PulseShape, x = s.letter := by
  constructor
  · intro h
    simp only [isPulseLetter, Bool.or_eq_true, beq_iff_eq] at h
    obtain ((rfl | rfl) | rfl) | rfl := h
    · exact ⟨.gaussian, rfl⟩
    · exact ⟨.fred, rfl⟩
    · exact ⟨.fredx, rfl⟩
    · exact ⟨.convolution, rfl⟩
  · rintro ⟨s, rfl⟩
    exact isPulseLetter_pulse s

/-- Whether a character is the letter of a residual. -/
def isResidualLetter (x : Char) : Bool := x == 's' || x == 'b'

@[simp] theorem isResidualLetter_residual (r : ResidualShape) :
    isResidualLetter r.letter = true := by
  cases r <;> rfl

theorem isResidualLetter_iff {x : Char} :
    isResidualLetter x = true ↔ ∃ r : ResidualShape, x = r.letter := by
  constructor
  · intro h
    simp only [isResidualLetter, Bool.or_eq_true, beq_iff_eq] at h
    obtain rfl | rfl := h
    · exact ⟨.sineGaussian, rfl⟩
    · exact ⟨.bessel, rfl⟩
  · rintro ⟨r, rfl⟩
    exact isResidualLetter_residual r

/-- The pulse letters of a row are those of the shapes. -/
theorem filter_row (pulses : List Pulse) :
    (row pulses).filter isPulseLetter = pulses.map (·.shape.letter) := by
  induction pulses with
  | nil => rfl
  | cons p rest ih =>
    obtain ⟨shape, residual⟩ := p
    cases residual <;> simp [ih]

/-- The lens letters have no part in which pulses a text names. -/
theorem filter_withoutLens (text : List Char) :
    (withoutLens text).filter isPulseLetter = text.filter isPulseLetter := by
  rw [withoutLens, List.filter_filter]
  refine List.filter_congr fun x _ => ?_
  by_cases hx : x = lensLetter
  · subst hx
    simp
  · simp [hx]

theorem countP_row (pulses : List Pulse) :
    (row pulses).countP isPulseLetter = pulses.length := by
  rw [List.countP_eq_length_filter, filter_row, List.length_map]

theorem countP_withoutLens (text : List Char) :
    (withoutLens text).countP isPulseLetter = text.countP isPulseLetter := by
  rw [List.countP_eq_length_filter, filter_withoutLens, ← List.countP_eq_length_filter]

/-- Where a row has the letter of a shape, it can be cut into the pulses before, the pulse of this
shape and the pulses after. -/
theorem exists_pulse_of_row {pulses : List Pulse} {front tail : List Char} {s : PulseShape}
    (h : row pulses = front ++ s.letter :: tail) :
    ∃ before residual after, pulses = before ++ ⟨s, residual⟩ :: after ∧ front = row before ∧
      tail = (residual.map ResidualShape.letter).toList ++ row after := by
  induction pulses generalizing front with
  | nil => simp at h
  | cons p rest ih =>
    obtain ⟨shape, residual⟩ := p
    rw [row_cons] at h
    cases front with
    | nil =>
      obtain ⟨hs, ht⟩ := List.cons.inj h
      obtain rfl : shape = s := PulseShape.letter_injective hs
      exact ⟨[], residual, rest, rfl, rfl, ht.symm⟩
    | cons x front =>
      obtain ⟨rfl, ht⟩ := List.cons.inj h
      cases residual with
      | none =>
        have hrest : row rest = front ++ s.letter :: tail := by simpa using ht
        obtain ⟨before, residual, after, rfl, rfl, htail⟩ := ih hrest
        exact ⟨⟨shape, none⟩ :: before, residual, after, rfl, by simp, htail⟩
      | some r =>
        cases front with
        | nil => exact absurd (List.cons.inj ht).1 (r.letter_ne_pulseLetter s)
        | cons y front =>
          obtain ⟨rfl, hrest⟩ := List.cons.inj ht
          obtain ⟨before, residual, after, rfl, rfl, htail⟩ := ih hrest
          exact ⟨⟨shape, some r⟩ :: before, residual, after, rfl, by simp, htail⟩

/-- In a row a residual letter stands directly behind the letter of a pulse, and is on it. -/
theorem residual_of_row {pulses : List Pulse} {front between back : List Char} {s : PulseShape}
    {r : ResidualShape} (hb : ∀ t : PulseShape, t.letter ∉ between)
    (h : row pulses = front ++ s.letter :: (between ++ r.letter :: back)) :
    between = [] ∧ pulses[front.countP isPulseLetter]? = some ⟨s, some r⟩ := by
  obtain ⟨before, residual, after, rfl, rfl, ht⟩ := exists_pulse_of_row h
  rw [countP_row, List.getElem?_append_right (Nat.le_refl _), Nat.sub_self]
  cases residual with
  | none => exact absurd ht.symm (row_ne_append_residual after hb r back)
  | some r' =>
    cases between with
    | nil =>
      have hr : r = r' := ResidualShape.letter_injective (List.cons.inj ht).1
      exact ⟨rfl, by rw [hr]; rfl⟩
    | cons x between =>
      have hrest : row after = between ++ r.letter :: back := (List.cons.inj ht).2.symm
      refine absurd hrest (row_ne_append_residual after (fun t hm => hb t ?_) r back)
      exact List.mem_cons_of_mem x hm

end Model

end PulseFit
