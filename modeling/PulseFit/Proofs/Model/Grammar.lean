import PulseFit.Proofs.Model.Indices
import PulseFit.Proofs.Model.Reading

/-!
# Proofs.Model.Grammar — which texts are model keys

Without the letters of the lens a model key is made of blocks: a pulse letter, and a residual letter
behind it or none.  `decode` accepts exactly these texts; the pulses of the model are those that the
letters name, and a text that is no model key is refused at the end of its shortest beginning that
is none (`decode_grammar`).
-/

namespace PulseFit.Model

/-- A pulse letter, and a residual letter behind it or none. -/
def IsBlock (block : List Char) : Prop :=
  ∃ x, isPulseLetter x = true ∧
    (block = [x] ∨ ∃ y, isResidualLetter y = true ∧ block = [x, y])

/-- Without the letters of the lens the text is made of blocks. -/
def IsModelKey (text : List Char) : Prop :=
  ∃ blocks : List (List Char), (∀ b ∈ blocks, IsBlock b) ∧
    text.filter (· ≠ 'L') = blocks.flatten

theorem isBlock_iff {block : List Char} : IsBlock block ↔ ∃ p, pulseLetters p = block := by
  constructor
  · rintro ⟨x, hx, hb⟩
    obtain ⟨s, rfl⟩ := isPulseLetter_iff.mp hx
    obtain rfl | ⟨y, hy, rfl⟩ := hb
    · exact ⟨⟨s, none⟩, rfl⟩
    · obtain ⟨r, rfl⟩ := isResidualLetter_iff.mp hy
      exact ⟨⟨s, some r⟩, rfl⟩
  · rintro ⟨⟨s, residual⟩, rfl⟩
    refine ⟨s.letter, isPulseLetter_pulse s, ?_⟩
    cases residual with
    | none => exact .inl rfl
    | some r => exact .inr ⟨r.letter, isResidualLetter_residual r, rfl⟩

/-- A model key spells the row of some pulses. -/
theorem isModelKey_iff {text : List Char} :
    IsModelKey text ↔ ∃ pulses, row pulses = withoutLens text := by
  constructor
  · rintro ⟨blocks, hb, ht⟩
    have hrow : ∃ pulses, row pulses = blocks.flatten := by
      clear ht
      induction blocks with
      | nil => exact ⟨[], rfl⟩
      | cons b blocks ih =>
        obtain ⟨pulses, hp⟩ := ih fun c hc => hb c (List.mem_cons_of_mem b hc)
        obtain ⟨p, rfl⟩ := isBlock_iff.mp (hb b List.mem_cons_self)
        exact ⟨p :: pulses, by rw [List.flatten_cons, ← hp]; rfl⟩
    obtain ⟨pulses, hp⟩ := hrow
    exact ⟨pulses, hp.trans ht.symm⟩
  · rintro ⟨pulses, hp⟩
    refine ⟨pulses.map pulseLetters, fun b hb => ?_, ?_⟩
    · obtain ⟨p, -, rfl⟩ := List.mem_map.mp hb
      exact isBlock_iff.mpr ⟨p, rfl⟩
    · exact hp.symm.trans List.flatMap_def

/-- The beginnings of a model key are model keys. -/
theorem IsModelKey.of_append {front back : List Char} (h : IsModelKey (front ++ back)) :
    IsModelKey front := by
  obtain ⟨pulses, hp⟩ := isModelKey_iff.mp h
  rw [withoutLens_append] at hp
  obtain ⟨before, hb⟩ := exists_row_of_append hp.symm
  exact isModelKey_iff.mpr ⟨before, hb.symm⟩

theorem IsModelKey.take {text : List Char} (h : IsModelKey text) (n : Nat) :
    IsModelKey (text.take n) := by
  rw [← List.take_append_drop n text] at h
  exact h.of_append

theorem decode_ok_iff_isModelKey {text : List Char} :
    (∃ m, decodeLetters text = .ok m) ↔ IsModelKey text := by
  rw [isModelKey_iff]
  constructor
  · rintro ⟨m, hm⟩
    exact ⟨m.pulses, (decodeLetters_eq_ok_iff.mp hm).1⟩
  · rintro ⟨pulses, hp⟩
    exact ⟨⟨text.contains lensLetter, pulses, none⟩,
      decodeLetters_eq_ok_iff.mpr ⟨hp, rfl, rfl⟩⟩

/-- No letter of the lens starts a pulse. -/
theorem isPulseLetter_of_lens {part : List Char}
    (h : ∀ y ∈ part, ¬ decide (y ≠ lensLetter) = true) : ∀ y ∈ part, isPulseLetter y = false := by
  intro y hy
  have hy := h y hy
  simp only [ne_eq, decide_not, Bool.not_eq_true', decide_eq_false_iff_not, not_not] at hy
  rw [hy]
  exact isPulseLetter_lens

/-- A residual letter that follows a pulse letter in the row follows it in the text, with letters of
the lens between the two at most. -/
theorem exists_cut_of_row {text : List Char} {before after : List Pulse} {s : PulseShape}
    {r : ResidualShape} (h : withoutLens text = row before ++ s.letter :: r.letter :: row after) :
    ∃ front between back, text = front ++ s.letter :: (between ++ r.letter :: back) ∧
      front.countP isPulseLetter = before.length ∧ ∀ y ∈ between, isPulseLetter y = false := by
  obtain ⟨front, rest, rfl, hfront, hrest⟩ := List.filter_eq_append_iff.mp h
  obtain ⟨lens, rest', rfl, hlens, -, hrest'⟩ := List.filter_eq_cons_iff.mp hrest
  obtain ⟨between, back, rfl, hbetween, -, -⟩ := List.filter_eq_cons_iff.mp hrest'
  refine ⟨front ++ lens, between, back, by simp, ?_, isPulseLetter_of_lens hbetween⟩
  have hcount : lens.countP isPulseLetter = 0 := by
    rw [List.countP_eq_zero]
    intro y hy
    simp [isPulseLetter_of_lens hlens y hy]
  rw [List.countP_append, hcount, Nat.add_zero, ← countP_withoutLens front, withoutLens, hfront,
    countP_row]

section Spelled

variable {m : Model} {text : List Char} (h : row m.pulses = withoutLens text)
include h

/-- The shape of a pulse is that of the pulse letter of its number. -/
theorem mem_indices_pulse_of_row {s : PulseShape} {i : Nat} :
    i ∈ m.indices (.pulse s) ↔
      ∃ j, i = j + 1 ∧ (text.filter isPulseLetter)[j]? = some s.letter := by
  rw [mem_indices_pulse, ← filter_withoutLens, ← h, filter_row]
  refine exists_congr fun j => ?_
  rw [List.getElem?_map]
  constructor
  · rintro ⟨p, hi, hp, rfl⟩
    exact ⟨hi, by rw [hp]; rfl⟩
  · rintro ⟨hi, hs⟩
    obtain ⟨p, hp, hl⟩ := Option.map_eq_some_iff.mp hs
    exact ⟨p, hi, hp, PulseShape.letter_injective hl⟩

/-- The residual of a pulse is that whose letter follows before the next pulse letter. -/
theorem mem_indices_residual_of_row {r : ResidualShape} {i : Nat} :
    i ∈ m.indices (.residual r) ↔
      ∃ front x between back, text = front ++ x :: (between ++ r.letter :: back) ∧
        isPulseLetter x = true ∧ i = front.countP isPulseLetter + 1 ∧
        ∀ y ∈ between, isPulseLetter y = false := by
  rw [mem_indices_residual]
  constructor
  · rintro ⟨j, ⟨s, residual⟩, rfl, hp, rfl⟩
    -- cut the row at the pulse, then carry the cut over to the text
    obtain ⟨hlt, hget⟩ := List.getElem?_eq_some_iff.mp hp
    have hsplit : withoutLens text =
        row (m.pulses.take j) ++ s.letter :: r.letter :: row (m.pulses.drop (j + 1)) := by
      have hpulses := List.take_append_drop j m.pulses
      rw [List.drop_eq_getElem_cons hlt, hget] at hpulses
      rw [← h, ← congrArg row hpulses, row_append, row_cons]
      rfl
    obtain ⟨front, between, back, htext, hcount, hbetween⟩ := exists_cut_of_row hsplit
    refine ⟨front, s.letter, between, back, htext, isPulseLetter_pulse s, ?_, hbetween⟩
    rw [hcount, List.length_take_of_le (Nat.le_of_lt hlt)]
  · rintro ⟨front, x, between, back, rfl, hx, rfl, hb⟩
    obtain ⟨s, rfl⟩ := isPulseLetter_iff.mp hx
    have hrow : row m.pulses = withoutLens front ++
        s.letter :: (withoutLens between ++ r.letter :: withoutLens back) := by
      rw [h]
      simp
    have hfree : ∀ t : PulseShape, t.letter ∉ withoutLens between := by
      intro t ht
      have := hb t.letter (List.mem_of_mem_filter ht)
      simp at this
    obtain ⟨-, hp⟩ := residual_of_row hfree hrow
    rw [countP_withoutLens] at hp
    exact ⟨_, _, rfl, hp, rfl⟩

end Spelled

/-- A refused text has a shortest beginning that is no model key, and the error is about its last
character. -/
theorem least_of_decode_error {text : List Char} {e : ModelError}
    (h : decodeLetters text = .error e) :
    ∃ p x, text[p]? = some x ∧ ¬ IsModelKey (text.take (p + 1)) ∧
      (∀ q < p, IsModelKey (text.take (q + 1))) ∧ e = offence (text.take p) x := by
  have hscan : scan 0 [] text = .error e := by
    rw [decodeLetters] at h
    cases hs : scan 0 [] text with
    | ok pulses =>
      rw [hs] at h
      cases h
    | error e' =>
      rw [hs] at h
      cases h
      rfl
  obtain ⟨before, x, after, pulses, htext, hrow, hno, he⟩ :=
    scan_eq_error row_start hscan
  rw [List.nil_append] at htext
  subst htext
  have hbefore : IsModelKey before := isModelKey_iff.mpr ⟨pulses, hrow⟩
  refine ⟨before.length, x, by simp, ?_, fun q hq => ?_, by simpa using he⟩
  · rw [isModelKey_iff, List.take_length_add_append, List.take_succ_cons, List.take_zero]
    rintro ⟨others, ho⟩
    exact hno others ho
  · rw [List.take_append_of_le_length hq]
    exact hbefore.take (q + 1)

/-- `decode` accepts exactly the model keys.  Of an accepted key, pulse `i` has the shape of the
`i`-th pulse letter, the residual whose letter follows before the next pulse letter, and a lens if
there is an `L` anywhere.  A refused key fails at the end of its shortest beginning that is no model
key. -/
theorem decode_grammar (key : String) :
    ((∃ m, decode key = .ok m) ↔ IsModelKey key.toList) ∧
    (∀ m, decode key = .ok m →
      (∀ s i, i ∈ m.indices (.pulse s) ↔
        ∃ j, i = j + 1 ∧ (key.toList.filter isPulseLetter)[j]? = some s.letter) ∧
      (∀ r i, i ∈ m.indices (.residual r) ↔
        ∃ front x between back, key.toList = front ++ x :: (between ++ r.letter :: back) ∧
          isPulseLetter x = true ∧ i = front.countP isPulseLetter + 1 ∧
          ∀ y ∈ between, isPulseLetter y = false) ∧
      (m.lensed = true ↔ 'L' ∈ key.toList)) ∧
    (∀ e, decode key = .error e →
      ∃ p x, key.toList[p]? = some x ∧ ¬ IsModelKey (key.toList.take (p + 1)) ∧
        (∀ q < p, IsModelKey (key.toList.take (q + 1))) ∧ e = offence (key.toList.take p) x) := by
  refine ⟨decode_ok_iff_isModelKey, fun m hm => ?_, fun e he => least_of_decode_error he⟩
  obtain ⟨hrow, hlensed, -⟩ := decodeLetters_eq_ok_iff.mp hm
  refine ⟨fun s i => mem_indices_pulse_of_row hrow, fun r i => mem_indices_residual_of_row hrow, ?_⟩
  rw [hlensed]
  exact List.contains_iff_mem

/-- A lens letter between a pulse and its residual, and a text with two faults. -/
theorem decode_grammar_GLbX :
    (IsModelKey "GLbX".toList ∧
      (1 ∈ Model.indices ⟨true, [⟨.gaussian, some .bessel⟩, ⟨.fredx, none⟩], none⟩
          (.residual .bessel) ↔
        ∃ front x between back, "GLbX".toList = front ++ x :: (between ++ 'b' :: back) ∧
          isPulseLetter x = true ∧ 1 = front.countP isPulseLetter + 1 ∧
          ∀ y ∈ between, isPulseLetter y = false)) ∧
    decode "GLbsQ" = .error (.duplicateResidual 1) ∧
    ∃ p x, "GLbsQ".toList[p]? = some x ∧ ¬ IsModelKey ("GLbsQ".toList.take (p + 1)) ∧
      (∀ q < p, IsModelKey ("GLbsQ".toList.take (q + 1))) ∧
      .duplicateResidual 1 = offence ("GLbsQ".toList.take p) x :=
  ⟨⟨(decode_grammar "GLbX").1.mp ⟨_, rfl⟩,
      ((decode_grammar "GLbX").2.1 _ rfl).2.1 .bessel 1⟩,
    rfl, (decode_grammar "GLbsQ").2.2 _ rfl⟩

end PulseFit.Model
