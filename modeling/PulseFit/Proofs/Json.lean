import Mathlib.Data.List.Basic
import Mathlib.Tactic.IntervalCases
import PulseFit.Json.Reader

/-!
# Proofs.Json — values are read back from their text

A numeral ends where neither a digit nor a point nor an exponent follows, and is read back from its
characters there (`numeral?_chars`).  A quoted text is read back behind its opening quote, whatever
was escaped (`quoted?_escaped`).  So every value whose numerals and texts can be written is read
back from its text (`read?_render`), by induction on the value.
-/

namespace PulseFit

/-- Only the numeral of zero starts with a zero. -/
theorem eq_zero_of_head?_toDigits {n : Nat} (h : (Nat.toDigits 10 n).head? = some '0') : n = 0 := by
  induction n using Nat.strongRecOn with
  | _ n ih =>
    rw [Nat.toDigits_eq_if (by decide)] at h
    split at h
    · next hlt =>
      interval_cases n <;> first | rfl | exact absurd h (by decide)
    · next hge =>
      have hne : Nat.toDigits 10 (n / 10) ≠ [] := Nat.toDigits_ne_nil
      rw [List.head?_append_of_ne_nil _ hne] at h
      have := ih (n / 10) (by omega) h
      omega

namespace Json

/-- A text at which a numeral in front of it ends. -/
def Ends (rest : List Char) : Prop :=
  ∀ c ∈ rest.head?, c.isDigit = false ∧ c ≠ '.' ∧ c ≠ 'e' ∧ c ≠ 'E'

theorem ends_nil : Ends [] := nofun

theorem ends_cons {c : Char} (h : c = ',' ∨ c = ']' ∨ c = '\x7d') (rest : List Char) :
    Ends (c :: rest) := by
  intro x hx
  obtain rfl : c = x := Option.some.inj hx
  rcases h with rfl | rfl | rfl <;> decide

variable {digits rest : List Char}

/-- Digits are read up to the first character that is none. -/
theorem span_digits (h : ∀ c ∈ digits, c.isDigit = true)
    (hrest : ∀ c ∈ rest.head?, c.isDigit = false) :
    (digits ++ rest).takeWhile Char.isDigit = digits ∧
      (digits ++ rest).dropWhile Char.isDigit = rest := by
  rw [List.takeWhile_append_of_pos h, List.dropWhile_append_of_pos h]
  cases rest with
  | nil => simp
  | cons c rest =>
    have hc : c.isDigit = false := hrest c rfl
    simp [hc]

theorem ne_of_isDigit {c : Char} (h : c.isDigit = true) : c ≠ '+' ∧ c ≠ '-' ∧ c ≠ '.' := by
  refine ⟨?_, ?_, ?_⟩ <;> (rintro rfl; exact absurd h (by decide))

theorem exponent?_none (hrest : Ends rest) : exponent? rest = some (none, rest) := by
  cases rest with
  | nil => rfl
  | cons c rest =>
    obtain ⟨-, -, he, hE⟩ := hrest c rfl
    simp [exponent?, he, hE]

theorem exponent?_digits (hne : digits ≠ []) (hdigits : ∀ c ∈ digits, c.isDigit = true)
    (hrest : Ends rest) :
    exponent? ('e' :: (digits ++ rest)) = some (some ↑(Nat.ofDigitChars 10 digits 0), rest) := by
  obtain ⟨htake, hdrop⟩ := span_digits hdigits fun c hc => (hrest c hc).1
  obtain ⟨d, ds, rfl⟩ := List.exists_cons_of_ne_nil hne
  obtain ⟨hplus, hminus, -⟩ := ne_of_isDigit (hdigits d List.mem_cons_self)
  rw [List.cons_append] at htake hdrop ⊢
  simp [exponent?, hplus, hminus, htake, hdrop]

theorem exponent?_negative (hne : digits ≠ []) (hdigits : ∀ c ∈ digits, c.isDigit = true)
    (hrest : Ends rest) :
    exponent? ('e' :: '-' :: (digits ++ rest)) =
      some (some (-↑(Nat.ofDigitChars 10 digits 0)), rest) := by
  obtain ⟨htake, hdrop⟩ := span_digits hdigits fun c hc => (hrest c hc).1
  simp [exponent?, htake, hdrop, hne]

end Json

namespace Numeral

/-- Numerals as they may stand in a text: digits before the point, with no zero in front. -/
structure Valid (n : Numeral) : Prop where
  whole_ne_nil : n.whole ≠ []
  whole_digits : ∀ c ∈ n.whole, c.isDigit = true
  whole_zero : n.whole.head? = some '0' → n.whole.length = 1
  fraction_digits : ∀ c ∈ n.fraction, c.isDigit = true

theorem isDigit_of_mem_toDigits {n : Nat} {c : Char} (h : c ∈ Nat.toDigits 10 n) :
    c.isDigit = true :=
  Nat.isDigit_of_mem_toDigits (by decide) (by decide) h

theorem valid_ofNat (n : Nat) : (ofNat n).Valid := by
  refine ⟨Nat.toDigits_ne_nil, fun c => isDigit_of_mem_toDigits, fun h => ?_, nofun⟩
  rw [eq_zero_of_head?_toDigits h]
  rfl

/-- The exponent of a numeral as it is written. -/
def exponentChars (n : Numeral) : List Char :=
  match n.exponent with
  | none => []
  | some e => 'e' :: (toString e).toList

/-- The fraction of a numeral as it is written. -/
def fractionChars (n : Numeral) : List Char :=
  if n.fraction.isEmpty then [] else '.' :: n.fraction

theorem chars_eq (n : Numeral) :
    n.chars = (if n.negative then ['-'] else []) ++ n.whole ++ n.fractionChars ++
      n.exponentChars := rfl

variable {n : Numeral} {rest : List Char}

open Json (Ends exponent? fraction? numeral?)

theorem exponent?_exponentChars (hrest : Ends rest) :
    exponent? (n.exponentChars ++ rest) = some (n.exponent, rest) := by
  obtain ⟨negative, whole, fraction, e⟩ := n
  rcases e with - | m | m
  · exact Json.exponent?_none hrest
  · have htext : (toString (Int.ofNat m)).toList = Nat.toDigits 10 m := by
      simp [toString, Int.repr, Nat.repr]
    have h := Json.exponent?_digits (Nat.toDigits_ne_nil (n := m))
      (fun c => isDigit_of_mem_toDigits) hrest
    rw [Nat.ofDigitChars_ten_toDigits, ← htext] at h
    exact h
  · have htext : (toString (Int.negSucc m)).toList = '-' :: Nat.toDigits 10 (m + 1) := by
      simp [toString, Int.repr, Nat.repr]
    have h := Json.exponent?_negative (Nat.toDigits_ne_nil (n := m + 1))
      (fun c => isDigit_of_mem_toDigits) hrest
    rw [Nat.ofDigitChars_ten_toDigits, ← List.cons_append, ← htext] at h
    exact h

theorem ends_exponentChars (hrest : Ends rest) :
    ∀ c ∈ (n.exponentChars ++ rest).head?, c.isDigit = false ∧ c ≠ '.' := by
  obtain ⟨negative, whole, fraction, e⟩ := n
  cases e with
  | none => exact fun c hc => ⟨(hrest c hc).1, (hrest c hc).2.1⟩
  | some e =>
    intro c hc
    obtain rfl : 'e' = c := Option.some.inj hc
    decide

theorem fraction?_fractionChars (h : n.Valid) (hrest : Ends rest) :
    fraction? (n.fractionChars ++ (n.exponentChars ++ rest)) =
      some (n.fraction, n.exponentChars ++ rest) := by
  have hends := ends_exponentChars (n := n) hrest
  generalize n.exponentChars ++ rest = rest at hends ⊢
  by_cases hempty : n.fraction = []
  · rw [fractionChars, hempty]
    cases rest with
    | nil => rfl
    | cons c rest =>
      have hpoint : c ≠ '.' := (hends c rfl).2
      simp [fraction?, hpoint]
  · obtain ⟨htake, hdrop⟩ := Json.span_digits h.fraction_digits fun c hc => (hends c hc).1
    simp [fractionChars, fraction?, hempty, htake, hdrop]

/-- The characters after the digits before the point start with no digit. -/
theorem ends_fractionChars (hrest : Ends rest) :
    ∀ c ∈ (n.fractionChars ++ (n.exponentChars ++ rest)).head?, c.isDigit = false := by
  by_cases hempty : n.fraction = []
  · rw [fractionChars, hempty]
    exact fun c hc => (ends_exponentChars hrest c hc).1
  · rw [fractionChars, if_neg (by simpa using hempty)]
    intro c hc
    obtain rfl : '.' = c := Option.some.inj hc
    decide

theorem Valid.whole_ne_minus (h : n.Valid) (text tail : List Char) :
    n.whole ++ text ≠ '-' :: tail := by
  obtain ⟨d, ds, hd⟩ := List.exists_cons_of_ne_nil h.whole_ne_nil
  have hminus : d ≠ '-' := (Json.ne_of_isDigit (h.whole_digits d (by simp [hd]))).2.1
  rw [hd, List.cons_append]
  exact fun heq => hminus (List.cons.inj heq).1

/-- A numeral is read back from its characters. -/
theorem numeral?_chars (h : n.Valid) (hrest : Ends rest) :
    numeral? (n.chars ++ rest) = some (n, rest) := by
  have hfraction := fraction?_fractionChars h hrest
  have hexponent := exponent?_exponentChars (n := n) hrest
  obtain ⟨htake, hdrop⟩ := Json.span_digits h.whole_digits (ends_fractionChars (n := n) hrest)
  cases hnegative : n.negative with
  | true =>
    have hchars : n.chars ++ rest =
        '-' :: (n.whole ++ (n.fractionChars ++ (n.exponentChars ++ rest))) := by
      simp [chars_eq, hnegative]
    rw [hchars, numeral?]
    simp [htake, hdrop, hfraction, hexponent]
    exact ⟨⟨h.whole_ne_nil, h.whole_zero⟩, by rw [← hnegative]⟩
  | false =>
    have hchars : n.chars ++ rest = n.whole ++ (n.fractionChars ++ (n.exponentChars ++ rest)) := by
      simp [chars_eq, hnegative]
    rw [hchars, numeral?]
    · simp [htake, hdrop, hfraction, hexponent]
      exact ⟨⟨h.whole_ne_nil, h.whole_zero⟩, by rw [← hnegative]⟩
    · exact fun tail heq => h.whole_ne_minus _ tail heq

end Numeral

namespace Json

theorem hexDigit?_digitChar {d : Nat} (h : d < 16) : hexDigit? (Nat.digitChar d) = some d := by
  interval_cases d <;> decide

/-- A unit that is no half of a pair stands for its character. -/
theorem assemble_unit {u : Nat} (h : u < 0xD800) (ps : List Piece) :
    assemble (.unit u :: ps) = (assemble ps).map (Char.ofNat u :: ·) := by
  have hleading : isLeading u = false := by simp [isLeading]; omega
  have htrailing : isTrailing u = false := by simp [isTrailing]; omega
  rcases ps with - | ⟨c | v, ps⟩ <;> simp [assemble, hleading, htrailing]

/-- The piece as which a character is read back. -/
def pieceOf (c : Char) : Piece := if c.toNat < 0x20 then .unit c.toNat else .char c

theorem assemble_map_pieceOf (cs : List Char) : assemble (cs.map pieceOf) = some cs := by
  induction cs with
  | nil => rfl
  | cons c cs ih =>
    rw [List.map_cons, pieceOf]
    split
    · next hc => rw [assemble_unit (by omega), ih, Option.map_some, Char.ofNat_toNat]
    · rw [assemble, ih, Option.map_some]

theorem pieces_escape (c : Char) (fuel : Nat) (text : List Char) :
    pieces (fuel + 1) (escape c ++ text) =
      (pieces fuel text).map fun r => (pieceOf c :: r.1, r.2) := by
  by_cases hquote : c = '"'
  · subst hquote
    cases h : pieces fuel text <;> simp [escape, pieces, shortEscape?, pieceOf, h]
  by_cases hslash : c = '\\'
  · subst hslash
    cases h : pieces fuel text <;> simp [escape, pieces, shortEscape?, pieceOf, h]
  by_cases hcontrol : c.toNat < 0x20
  · -- Two digits of the four are zero, and the other two make up the character again.
    have hhigh := hexDigit?_digitChar (d := c.toNat / 16) (by omega)
    have hlow := hexDigit?_digitChar (d := c.toNat % 16) (by omega)
    have hzero : hexDigit? '0' = some 0 := by decide
    have hunit : c.toNat / 16 * 16 + c.toNat % 16 = c.toNat := by omega
    cases h : pieces fuel text <;>
      simp [escape, hquote, hslash, hcontrol, pieces, hexUnit?, hhigh, hlow, hzero, hunit, pieceOf,
        h]
  · cases h : pieces fuel text <;> simp [escape, hquote, hslash, hcontrol, pieces, pieceOf, h]

theorem pieces_flatMap_escape (cs rest : List Char) (fuel : Nat) (h : cs.length < fuel) :
    pieces fuel (cs.flatMap escape ++ '"' :: rest) = some (cs.map pieceOf, rest) := by
  induction cs generalizing fuel with
  | nil =>
    obtain ⟨fuel, rfl⟩ : ∃ k, fuel = k + 1 := ⟨fuel - 1, by omega⟩
    simp [pieces]
  | cons c cs ih =>
    rw [List.length_cons] at h
    obtain ⟨fuel, rfl⟩ : ∃ k, fuel = k + 1 := ⟨fuel - 1, by omega⟩
    rw [List.flatMap_cons, List.append_assoc, pieces_escape, ih fuel (by omega)]
    rfl

theorem one_le_length_escape (c : Char) : 1 ≤ (escape c).length := by
  unfold escape
  split_ifs <;> simp

theorem length_le_length_flatMap_escape (cs : List Char) :
    cs.length ≤ (cs.flatMap escape).length := by
  induction cs with
  | nil => simp
  | cons c cs ih =>
    have := one_le_length_escape c
    simp only [List.flatMap_cons, List.length_append, List.length_cons]
    omega

/-- A quoted text is read back after its opening quote. -/
theorem quoted?_escaped (s : String) (rest : List Char) :
    quoted? (s.toList.flatMap escape ++ '"' :: rest) = some (some s, rest) := by
  have hlength := length_le_length_flatMap_escape s.toList
  have hpieces := pieces_flatMap_escape s.toList rest
    ((s.toList.flatMap escape ++ '"' :: rest).length + 1) (by rw [List.length_append]; omega)
  rw [quoted?, hpieces]
  simp [assemble_map_pieceOf]

/-! ## Values -/

/-- Values that have a text. -/
inductive Value.Valid : Value → Prop
  | null : Valid .null
  | bool (b : Bool) : Valid (.bool b)
  | number {n : Numeral} (h : n.Valid) : Valid (.number n)
  | text (s : String) : Valid (.text s)
  | array {items : List Value} (h : ∀ v ∈ items, Valid v) : Valid (.array items)
  | object {members : List (Option String × Value)} (hnames : ∀ m ∈ members, m.1.isSome = true)
      (h : ∀ m ∈ members, Valid m.2) : Valid (.object members)

/-! ## The first character -/

/-- A character that begins the text of a value. -/
def Begins (c : Char) : Prop := isBlank c = false ∧ c ≠ ']'

theorem begins_of_isDigit {c : Char} (h : c.isDigit = true) : Begins c := by
  refine ⟨Bool.eq_false_iff.mpr fun hblank => ?_, ?_⟩
  · simp only [isBlank, Bool.or_eq_true, beq_iff_eq] at hblank
    rcases hblank with ((rfl | rfl) | rfl) | rfl <;> exact absurd h (by decide)
  · rintro rfl
    exact absurd h (by decide)

/-- The text of a numeral begins with a sign or a digit. -/
theorem exists_chars_eq_cons {n : Numeral} (h : n.Valid) :
    ∃ c text, n.chars = c :: text ∧ (c = '-' ∨ c.isDigit = true) := by
  obtain ⟨d, ds, hd⟩ := List.exists_cons_of_ne_nil h.whole_ne_nil
  cases hnegative : n.negative with
  | true => exact ⟨'-', _, by rw [Numeral.chars_eq, hnegative]; rfl, .inl rfl⟩
  | false =>
    refine ⟨d, _, by rw [Numeral.chars_eq, hnegative, hd]; rfl, .inr ?_⟩
    exact h.whole_digits d (by rw [hd]; exact List.mem_cons_self)

theorem exists_print_eq_cons {v : Value} (h : v.Valid) :
    ∃ c text, print v = c :: text ∧ Begins c := by
  cases h with
  | null => exact ⟨'n', _, rfl, by decide, by decide⟩
  | bool b =>
    cases b with
    | false => exact ⟨'f', _, rfl, by decide, by decide⟩
    | true => exact ⟨'t', _, rfl, by decide, by decide⟩
  | text s => exact ⟨'"', _, rfl, by decide, by decide⟩
  | array h => exact ⟨'[', _, rfl, by decide, by decide⟩
  | object hnames h => exact ⟨'\x7b', _, rfl, by decide, by decide⟩
  | @number n h =>
    obtain ⟨c, text, htext, hc⟩ := exists_chars_eq_cons h
    refine ⟨c, text, htext, ?_⟩
    rcases hc with rfl | hc
    · exact ⟨by decide, by decide⟩
    · exact begins_of_isDigit hc

theorem skipBlanks_of_begins {c : Char} (h : Begins c) (text : List Char) :
    skipBlanks (c :: text) = c :: text := by
  rw [skipBlanks, List.dropWhile_cons_of_neg (by simp [h.1])]

/-! ## Reading back -/

/-- A value is read back from its text, whatever follows it.  Each value takes fuel twice, to be
read and to go on in its list, and has a character of its own. -/
def ReadBack (v : Value) : Prop :=
  ∀ (fuel : Nat) (rest : List Char), 2 * (print v).length ≤ fuel + 1 → Ends rest →
    value? (fuel + 1) (print v ++ rest) = some (v, rest)

theorem readBack_number {n : Numeral} (h : n.Valid) : ReadBack (.number n) := by
  intro fuel rest hfuel hrest
  obtain ⟨c, text, htext, hc⟩ := exists_chars_eq_cons h
  obtain ⟨_, _, hprint, hbegins⟩ := exists_print_eq_cons (.number h)
  obtain ⟨rfl, rfl⟩ := List.cons.inj (htext.symm.trans hprint)
  have hread := Numeral.numeral?_chars h hrest
  have hne : ∀ x ∈ ['"', '[', '\x7b', 't', 'f', 'n'], c ≠ x := by
    rintro x hx rfl
    rcases hc with rfl | hc
    · exact absurd hx (by decide)
    · simp only [List.mem_cons, List.not_mem_nil, or_false] at hx
      rcases hx with rfl | rfl | rfl | rfl | rfl | rfl <;> exact absurd hc (by decide)
  simp only [List.mem_cons, forall_eq_or_imp] at hne
  rw [htext, List.cons_append] at hread
  rw [hprint, List.cons_append, value?, skipBlanks_of_begins hbegins]
  simp [hne, hread]

theorem items?_of_last {fuel : Nat} {text rest : List Char} {v : Value}
    (h : value? fuel text = some (v, ']' :: rest)) : items? (fuel + 1) text = some ([v], rest) := by
  simp [items?, h, skipBlanks, isBlank]

theorem items?_of_more {fuel : Nat} {text more : List Char} {v : Value}
    (h : value? fuel text = some (v, ',' :: more)) :
    items? (fuel + 1) text = (items? fuel more).map fun r => (v :: r.1, r.2) := by
  rw [items?]
  simp [h, skipBlanks, isBlank]

theorem printItems_cons (v : Value) (items : List Value) :
    printItems false (v :: items) = ',' :: (print v ++ printItems false items) := rfl

/-- Items are read back from their text, if each of them is. -/
theorem items?_printItems {v : Value} {items : List Value} (hv : ReadBack v)
    (hitems : ∀ w ∈ items, ReadBack w) (fuel : Nat) (rest : List Char)
    (hfuel : 2 * (print v ++ printItems false items).length ≤ fuel) :
    items? (fuel + 2) (print v ++ (printItems false items ++ ']' :: rest)) =
      some (v :: items, rest) := by
  induction items generalizing v fuel with
  | nil =>
    simp only [printItems, List.append_nil] at hfuel
    exact items?_of_last (hv fuel (']' :: rest) (by omega) (ends_cons (by simp) rest))
  | cons w items ih =>
    rw [printItems_cons] at hfuel ⊢
    simp only [List.length_append, List.length_cons] at hfuel
    -- The comma pays for the step to the next item.
    obtain ⟨fuel, rfl⟩ : ∃ k, fuel = k + 1 := ⟨fuel - 1, by omega⟩
    have h := hv (fuel + 1) (',' :: (print w ++ (printItems false items ++ ']' :: rest)))
      (by omega) (ends_cons (by simp) _)
    have hmore := ih (hitems w List.mem_cons_self)
      (fun x hx => hitems x (List.mem_cons_of_mem w hx)) fuel (by rw [List.length_append]; omega)
    rw [List.cons_append, List.append_assoc, items?_of_more h, hmore]
    rfl

theorem readBack_array {items : List Value} (hvalid : ∀ v ∈ items, v.Valid)
    (h : ∀ v ∈ items, ReadBack v) : ReadBack (.array items) := by
  intro fuel rest hfuel hrest
  cases items with
  | nil => simp [print, printItems, value?, skipBlanks, isBlank]
  | cons v items =>
    have hprint : print (.array (v :: items)) =
        '[' :: (print v ++ (printItems false items ++ [']'])) := by
      simp [print, printItems]
    simp only [hprint, List.length_append, List.length_cons, List.length_nil] at hfuel
    obtain ⟨fuel, rfl⟩ : ∃ k, fuel = k + 2 := ⟨fuel - 2, by omega⟩
    have hitems := items?_printItems (h v List.mem_cons_self)
      (fun w hw => h w (List.mem_cons_of_mem v hw)) fuel rest
      (by rw [List.length_append]; omega)
    obtain ⟨c, text, hc, hbegins⟩ := exists_print_eq_cons (hvalid v List.mem_cons_self)
    rw [hc, List.cons_append] at hitems
    rw [hprint, hc, List.cons_append, value?, skipBlanks_of_begins ⟨by decide, by decide⟩]
    simp [skipBlanks_of_begins hbegins, hbegins.2, hitems]

theorem members?_of_last {fuel : Nat} {text rest : List Char} {v : Value} (s : String)
    (h : value? fuel text = some (v, '\x7d' :: rest)) :
    members? (fuel + 1) ('"' :: (s.toList.flatMap escape ++ '"' :: ':' :: text)) =
      some ([(some s, v)], rest) := by
  simp [members?, quoted?_escaped, h, skipBlanks, isBlank]

theorem members?_of_more {fuel : Nat} {text more : List Char} {v : Value} (s : String)
    (h : value? fuel text = some (v, ',' :: more)) :
    members? (fuel + 1) ('"' :: (s.toList.flatMap escape ++ '"' :: ':' :: text)) =
      (members? fuel more).map fun r => ((some s, v) :: r.1, r.2) := by
  rw [members?]
  simp [quoted?_escaped, h, skipBlanks, isBlank]

theorem printMembers_cons (s : String) (v : Value) (members : List (Option String × Value)) :
    printMembers false ((some s, v) :: members) =
      ',' :: '"' :: (s.toList.flatMap escape ++ '"' :: ':' ::
        (print v ++ printMembers false members)) := by
  simp [printMembers, quote]

/-- Members are read back from their text, if the value of each of them is. -/
theorem members?_printMembers {s : String} {v : Value} {members : List (Option String × Value)}
    (hv : ReadBack v) (hnames : ∀ m ∈ members, m.1.isSome = true)
    (hmembers : ∀ m ∈ members, ReadBack m.2) (fuel : Nat) (rest : List Char)
    (hfuel : 2 * (print v ++ printMembers false members).length ≤ fuel) :
    members? (fuel + 2) ('"' :: (s.toList.flatMap escape ++ '"' :: ':' ::
      (print v ++ (printMembers false members ++ '\x7d' :: rest)))) =
        some ((some s, v) :: members, rest) := by
  induction members generalizing s v fuel with
  | nil =>
    simp only [printMembers, List.append_nil] at hfuel
    exact members?_of_last s (hv fuel ('\x7d' :: rest) (by omega) (ends_cons (by simp) rest))
  | cons m members ih =>
    obtain ⟨name, w⟩ := m
    obtain ⟨t, rfl⟩ := Option.isSome_iff_exists.mp (hnames _ List.mem_cons_self)
    rw [printMembers_cons] at hfuel ⊢
    simp only [List.length_append, List.length_cons] at hfuel
    obtain ⟨fuel, rfl⟩ : ∃ k, fuel = k + 1 := ⟨fuel - 1, by omega⟩
    have h := hv (fuel + 1) (',' :: '"' :: (t.toList.flatMap escape ++ '"' :: ':' ::
      (print w ++ (printMembers false members ++ '\x7d' :: rest)))) (by omega)
      (ends_cons (by simp) _)
    have hw : ReadBack w := hmembers _ List.mem_cons_self
    have hmore := ih (s := t) hw (fun m hm => hnames m (List.mem_cons_of_mem _ hm))
      (fun m hm => hmembers m (List.mem_cons_of_mem _ hm)) fuel
      (by rw [List.length_append]; omega)
    simp only [List.cons_append, List.append_assoc]
    rw [members?_of_more s h, hmore]
    rfl

theorem readBack_object {members : List (Option String × Value)}
    (hnames : ∀ m ∈ members, m.1.isSome = true) (h : ∀ m ∈ members, ReadBack m.2) :
    ReadBack (.object members) := by
  intro fuel rest hfuel hrest
  cases members with
  | nil => simp [print, printMembers, value?, skipBlanks, isBlank]
  | cons m members =>
    obtain ⟨name, v⟩ := m
    obtain ⟨s, rfl⟩ := Option.isSome_iff_exists.mp (hnames _ List.mem_cons_self)
    have hprint : print (.object ((some s, v) :: members)) =
        '\x7b' :: '"' :: (s.toList.flatMap escape ++ '"' :: ':' ::
          (print v ++ (printMembers false members ++ ['\x7d']))) := by
      simp [print, printMembers, quote]
    simp only [hprint, List.length_append, List.length_cons, List.length_nil] at hfuel
    obtain ⟨fuel, rfl⟩ : ∃ k, fuel = k + 2 := ⟨fuel - 2, by omega⟩
    have hv : ReadBack v := h _ List.mem_cons_self
    have hmembers := members?_printMembers (s := s) hv
      (fun m hm => hnames m (List.mem_cons_of_mem _ hm))
      (fun m hm => h m (List.mem_cons_of_mem _ hm)) fuel rest
      (by rw [List.length_append]; omega)
    rw [hprint, List.cons_append, value?, skipBlanks_of_begins ⟨by decide, by decide⟩]
    simp [skipBlanks, isBlank, hmembers]

/-- Values that have a text are read back from it, whatever follows. -/
theorem readBack {v : Value} (h : v.Valid) : ReadBack v := by
  induction h with
  | null =>
    intro fuel rest hfuel hrest
    simp [print, value?, skipBlanks, isBlank, word?]
  | bool b =>
    intro fuel rest hfuel hrest
    cases b <;> simp [print, value?, skipBlanks, isBlank, word?]
  | number h => exact readBack_number h
  | text s =>
    intro fuel rest hfuel hrest
    simp [Value.text, print, quote, value?, skipBlanks, isBlank, quoted?_escaped]
  | array h ih => exact readBack_array h ih
  | object hnames h ih => exact readBack_object hnames ih

/-- A value is read back from its text. -/
theorem read?_render {v : Value} (h : v.Valid) : read? v.render = some v := by
  have hread := readBack h (2 * (print v).length + 1) [] (by omega) ends_nil
  rw [List.append_nil] at hread
  simp [read?, readFront?, Value.render, hread, skipBlanks]

end Json

end PulseFit
