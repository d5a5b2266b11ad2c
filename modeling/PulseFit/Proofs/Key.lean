import PulseFit.Key

/-!
# Proofs.Key — the text of a key says which key it is

Two keys never share a text (`text_injective`), although the names of quantities hold underscores
themselves: a text is cut from the right, behind the last underscore stands the channel, and no name
of a quantity ends like that.  `Spells` says which texts are keys, and reading takes those and no
others (`parse_eq_ok_iff`).  The text of a key is one of them as long as its pulse number is
positive and a machine word (`parse_text`), and the others differ from it by zeros before the number
(`spells_iff`); it is never read as a key of another channel (`channel?_of_parse_text`).
-/

namespace PulseFit

theorem Channel.letter_injective {ch ch' : Channel} (h : ch.letter = ch'.letter) : ch = ch' := by
  have hs := Channel.ofSuffix?_letter ch
  rw [h, Channel.ofSuffix?_letter] at hs
  exact (Option.some.inj hs).symm

theorem Channel.letter_ne_underscore (ch : Channel) : '_' ∉ [ch.letter] := by
  cases ch <;> decide

theorem Channel.eq_letter_of_ofSuffix? {suffix : List Char} {ch : Channel}
    (h : Channel.ofSuffix? suffix = some ch) : suffix = [ch.letter] := by
  unfold Channel.ofSuffix? at h
  split at h
  · next x =>
    have hx : ch.letter = x := by simpa using List.find?_some h
    rw [hx]
  · cases h

namespace Quantity

theorem ofName?_name (q : Quantity) : ofName? q.name = some q := by
  rcases q with q | _ | q
  · cases q <;> rfl
  · rfl
  · cases q <;> rfl

theorem name_injective {q q' : Quantity} (h : q.name = q'.name) : q = q' := by
  have hq := ofName?_name q
  rw [h, ofName?_name] at hq
  exact (Option.some.inj hq).symm

theorem name_of_ofName? {text : String} {q : Quantity} (h : ofName? text = some q) :
    q.name = text := by
  simpa using List.find?_some h

/-- No name ends in an underscore and the letter of a channel. -/
theorem name_ne_append_suffix (q : Quantity) (body : List Char) (ch : Channel) :
    q.name.toList ≠ body ++ ['_', ch.letter] := by
  intro h
  have hs : ['_', ch.letter] <:+ q.name.toList := ⟨body, h.symm⟩
  revert hs
  rcases q with q | _ | q
  · cases q <;> cases ch <;> decide
  · cases ch <;> decide
  · cases q <;> cases ch <;> decide

theorem ofName?_append_suffix (body : List Char) (ch : Channel) :
    ofName? (String.ofList (body ++ ['_', ch.letter])) = none := by
  rw [ofName?, List.find?_eq_none]
  intro q _ hq
  rw [beq_iff_eq] at hq
  exact name_ne_append_suffix q body ch (by rw [hq, String.toList_ofList])

end Quantity

namespace Key

/-- A text that ends in the letter of a channel is cut before it. -/
theorem splitLast?_suffix (body : List Char) (ch : Channel) :
    Text.splitLast? '_' (body ++ ['_', ch.letter]) = some (body, [ch.letter]) :=
  Text.splitLast?_append body ch.letter_ne_underscore

theorem splitLast?_number (name : List Char) (i : Nat) :
    Text.splitLast? '_' (name ++ '_' :: Nat.toDigits 10 i) = some (name, Nat.toDigits 10 i) :=
  Text.splitLast?_append name Nat.underscore_not_in_toDigits

theorem splitLast?_background :
    Text.splitLast? '_' Quantity.background.name.toList = none :=
  Text.splitLast?_eq_none (by decide)

/-- Texts that end in the letter of a channel have the same letter there and the same rest. -/
theorem eq_of_append_suffix {body body' : List Char} {ch ch' : Channel}
    (h : body ++ ['_', ch.letter] = body' ++ ['_', ch'.letter]) : body = body' ∧ ch = ch' := by
  have hs := splitLast?_suffix body ch
  rw [h, splitLast?_suffix] at hs
  obtain ⟨hb, hc⟩ := Prod.mk.inj (Option.some.inj hs)
  exact ⟨hb.symm, (Channel.letter_injective (List.cons.inj hc).1).symm⟩

/-- Texts that end in a number have the same number there and the same rest. -/
theorem eq_of_append_number {name name' : List Char} {i j : Nat}
    (h : name ++ '_' :: Nat.toDigits 10 i = name' ++ '_' :: Nat.toDigits 10 j) :
    name = name' ∧ i = j := by
  have hs := splitLast?_number name i
  rw [h, splitLast?_number] at hs
  obtain ⟨hn, hd⟩ := Prod.mk.inj (Option.some.inj hs)
  have hi := congrArg (Nat.ofDigitChars 10 · 0) hd
  simp only [Nat.ofDigitChars_ten_toDigits] at hi
  exact ⟨hn.symm, hi.symm⟩

theorem background_ne_append_number (name : List Char) (i : Nat) :
    Quantity.background.name.toList ≠ name ++ '_' :: Nat.toDigits 10 i := by
  intro h
  have hs := splitLast?_number name i
  rw [← h, splitLast?_background] at hs
  cases hs

theorem chars_injective {k l : Key} (h : k.chars = l.chars) : k = l := by
  cases k with
  | lens q =>
    cases l with
    | lens q' =>
      have hq : Quantity.lens q = Quantity.lens q' :=
        Quantity.name_injective (String.toList_inj.mp h)
      rw [Quantity.lens.inj hq]
    | background ch => exact absurd h (Quantity.name_ne_append_suffix (.lens q) _ ch)
    | shape q' i ch => exact absurd h (Quantity.name_ne_append_suffix (.lens q) _ ch)
  | background ch =>
    cases l with
    | lens q' => exact absurd h.symm (Quantity.name_ne_append_suffix (.lens q') _ ch)
    | background ch' => rw [(eq_of_append_suffix h).2]
    | shape q' i ch' =>
      exact absurd (eq_of_append_suffix h).1 (background_ne_append_number _ i)
  | shape q i ch =>
    cases l with
    | lens q' => exact absurd h.symm (Quantity.name_ne_append_suffix (.lens q') _ ch)
    | background ch' =>
      exact absurd (eq_of_append_suffix h).1.symm (background_ne_append_number _ i)
    | shape q' j ch' =>
      obtain ⟨hbody, rfl⟩ := eq_of_append_suffix h
      obtain ⟨hname, rfl⟩ := eq_of_append_number hbody
      have hq : Quantity.shape q = Quantity.shape q' :=
        Quantity.name_injective (String.toList_inj.mp hname)
      rw [Quantity.shape.inj hq]

/-- Different keys have different texts. -/
theorem text_injective {k l : Key} (h : k.text = l.text) : k = l := by
  have hc := congrArg String.toList h
  rw [text, text, String.toList_ofList, String.toList_ofList] at hc
  exact chars_injective hc

/-- The pulse number, if there is one, is positive and a machine word. -/
def Numbered (k : Key) : Prop := ∀ i, k.pulse? = some i → 0 < i ∧ i < pulseBound

theorem splitPulse?_background :
    splitPulse? Quantity.background.name.toList =
      some (Quantity.background.name.toList, none) := by
  rw [splitPulse?, splitLast?_background]

/-- Digits behind the last underscore are the number of a pulse if it is a machine word. -/
theorem splitPulse?_digits (name : List Char) {digits : List Char} (hne : digits ≠ [])
    (hdigits : ∀ x ∈ digits, x.isDigit = true) (h : Nat.ofDigitChars 10 digits 0 < pulseBound) :
    splitPulse? (name ++ '_' :: digits) = some (name, some (Nat.ofDigitChars 10 digits 0)) := by
  have hfree : '_' ∉ digits := fun hmem => absurd (hdigits '_' hmem) (by decide)
  rw [splitPulse?, Text.splitLast?_append name hfree]
  show (if digits.all (·.isDigit) = true then _ else _) = _
  rw [if_pos (List.all_eq_true.mpr hdigits), if_pos ⟨hne, h⟩]

/-- What is cut off as the number of a pulse is one. -/
theorem eq_append_of_splitPulse? {body name : List Char} {pulse? : Option Nat}
    (h : splitPulse? body = some (name, pulse?)) :
    (body = name ∧ pulse? = none) ∨
      ∃ digits, body = name ++ '_' :: digits ∧ digits ≠ [] ∧ (∀ x ∈ digits, x.isDigit = true) ∧
        Nat.ofDigitChars 10 digits 0 < pulseBound ∧
        pulse? = some (Nat.ofDigitChars 10 digits 0) := by
  unfold splitPulse? at h
  split at h
  · cases h
    exact .inl ⟨rfl, rfl⟩
  · next front digits hsplit =>
    split at h
    · next hdigits =>
      split at h
      · next hnumber =>
        cases h
        exact .inr ⟨digits, Text.eq_append_of_splitLast? hsplit, hnumber.1,
          List.all_eq_true.mp hdigits, hnumber.2, rfl⟩
      · cases h
    · cases h
      exact .inl ⟨rfl, rfl⟩

/-- A text is read if it ends in the letter of a channel and has the parts of a key before it. -/
theorem parse_append_suffix {body : List Char} {ch : Channel} {q : Quantity} {pulse? : Option Nat}
    {k : Key} (hbody : splitPulse? body = some (q.name.toList, pulse?))
    (hk : ofParts? q pulse? ch = some k) :
    parse (String.ofList (body ++ ['_', ch.letter])) = .ok k := by
  simp only [parse, Quantity.ofName?_append_suffix, String.toList_ofList, splitLast?_suffix,
    Channel.ofSuffix?_letter, hbody, String.ofList_toList, Quantity.ofName?_name, hk]

/-! ## Which texts are keys -/

/-- The texts that spell a key.  Zeros may stand before the number of a pulse. -/
inductive Spells : List Char → Key → Prop
  | lens (q : LensQuantity) : Spells q.name.toList (lens q)
  | background (ch : Channel) : Spells ("background_".toList ++ [ch.letter]) (background ch)
  | shape (q : ShapeQuantity) {digits : List Char} (ch : Channel) (hne : digits ≠ [])
      (hdigits : ∀ x ∈ digits, x.isDigit = true) (hpos : 1 ≤ Nat.ofDigitChars 10 digits 0)
      (hlt : Nat.ofDigitChars 10 digits 0 < Nat.pow 2 64) :
      Spells (q.name.toList ++ '_' :: digits ++ ['_', ch.letter])
        (shape q (Nat.ofDigitChars 10 digits 0) ch)

/-- The parts of a key are those that its quantity asks for. -/
theorem ofParts?_eq_some_iff {q : Quantity} {pulse? : Option Nat} {ch : Channel} {k : Key} :
    ofParts? q pulse? ch = some k ↔
      (q = .background ∧ pulse? = none ∧ k = background ch) ∨
        ∃ q' i, q = .shape q' ∧ pulse? = some i ∧ 1 ≤ i ∧ k = shape q' i ch := by
  rcases q with q | _ | q <;> rcases pulse? with _ | i
  · simp [ofParts?]
  · simp [ofParts?]
  · simp [ofParts?, eq_comm]
  · simp [ofParts?]
  · simp [ofParts?]
  · simp [ofParts?, Nat.one_le_iff_ne_zero, eq_comm]

/-- Parts that are a key stand in a text that spells it. -/
theorem spells_of_ofParts? {body : List Char} {q : Quantity} {pulse? : Option Nat} {ch : Channel}
    {k : Key} (hbody : splitPulse? body = some (q.name.toList, pulse?))
    (hk : ofParts? q pulse? ch = some k) : Spells (body ++ ['_', ch.letter]) k := by
  obtain ⟨rfl, rfl, rfl⟩ | ⟨q', i, rfl, rfl, hpos, rfl⟩ := ofParts?_eq_some_iff.mp hk
  · obtain ⟨rfl, -⟩ | ⟨digits, -, -, -, -, hnumber⟩ := eq_append_of_splitPulse? hbody
    · exact .background ch
    · cases hnumber
  · obtain ⟨-, hnumber⟩ | ⟨digits, rfl, hne, hdigits, hlt, hnumber⟩ :=
      eq_append_of_splitPulse? hbody
    · cases hnumber
    · cases hnumber
      exact .shape q' ch hne hdigits hpos hlt

/-- Reading a text cuts it where it spells a key. -/
theorem spells_of_parse {s : String} {k : Key} (h : parse s = .ok k) : Spells s.toList k := by
  unfold parse at h
  split at h
  · next q hq =>
    cases h
    rw [← Quantity.name_of_ofName? hq]
    exact .lens q
  · cases h
  · split at h
    · cases h
    · next body suffix hcut =>
      split at h
      · cases h
      · next ch hch =>
        split at h
        · cases h
        · next name pulse? hpulse =>
          split at h
          · cases h
          · next q hq =>
            split at h
            · cases h
            · next l hl =>
              cases h
              have hs := Text.eq_append_of_splitLast? hcut
              rw [Channel.eq_letter_of_ofSuffix? hch] at hs
              rw [hs]
              have hname : name = q.name.toList := by
                rw [Quantity.name_of_ofName? hq, String.toList_ofList]
              exact spells_of_ofParts? (hname ▸ hpulse) hl

/-- A text that spells a key is read as this key. -/
theorem parse_of_spells {text : List Char} {k : Key} (h : Spells text k) :
    parse (String.ofList text) = .ok k := by
  cases h with
  | lens q => cases q <;> rfl
  | background ch => exact parse_append_suffix splitPulse?_background rfl
  | @shape q digits ch hne hdigits hpos hlt =>
    exact parse_append_suffix (q := .shape q) (splitPulse?_digits q.name.toList hne hdigits hlt)
      (ofParts?_eq_some_iff.mpr (.inr ⟨q, _, rfl, rfl, hpos, rfl⟩))

/-- The texts that are read are those that spell a key. -/
theorem parse_eq_ok_iff {s : String} {k : Key} : parse s = .ok k ↔ Spells s.toList k := by
  constructor
  · exact spells_of_parse
  · intro h
    have hs := parse_of_spells h
    rwa [String.ofList_toList] at hs

/-- The characters of a key are one of its spellings. -/
theorem spells_chars {k : Key} (h : k.Numbered) : Spells k.chars k := by
  cases k with
  | lens q => exact .lens q
  | background ch => exact .background ch
  | shape q i ch =>
    obtain ⟨hpos, hlt⟩ := h i rfl
    have hi : Nat.ofDigitChars 10 (Nat.toDigits 10 i) 0 = i := Nat.ofDigitChars_ten_toDigits
    have hs := Spells.shape q ch (Nat.toDigits_ne_nil (b := 10) (n := i))
      (fun c hc => Nat.isDigit_of_mem_toDigits (by decide) (by decide) hc)
      (by rw [hi]; exact hpos) (by rw [hi]; exact hlt)
    rwa [hi] at hs

/-- A key is read back from its text. -/
theorem parse_text {k : Key} (h : k.Numbered) : parse k.text = .ok k :=
  parse_of_spells (spells_chars h)

/-- A text that is not read is named in the error, of which there are three kinds. -/
theorem error_of_parse {s : String} {e : KeyError} (h : parse s = .error e) :
    e ∈ [.unknownField s, .unknownChannel s, .malformed s] := by
  unfold parse at h
  repeat' split at h
  all_goals cases h
  all_goals simp

/-- The texts of keys and what they are read as.  A key is read back from its text, so keys do not
share a text.  The texts that are read are the name of a lens quantity, the background of a channel,
and a quantity of a pulse with the number of the pulse in digits and a channel; they are read as
what they spell.  Any other text is an error. -/
theorem parse_spelled :
    (∀ k : Key, k.Numbered → parse k.text = .ok k) ∧
      (∀ k l : Key, k.text = l.text → k = l) ∧
      (∀ (s : String) (k : Key), parse s = .ok k ↔ Spells s.toList k) ∧
      ∀ s : String, (∀ k, ¬ Spells s.toList k) →
        ∃ e ∈ [KeyError.unknownField s, .unknownChannel s, .malformed s], parse s = .error e := by
  refine ⟨fun _ => parse_text, fun _ _ => text_injective, fun _ _ => parse_eq_ok_iff, ?_⟩
  intro s hs
  cases h : parse s with
  | ok k => exact absurd (parse_eq_ok_iff.mp h) (hs k)
  | error e => exact ⟨e, error_of_parse h, rfl⟩

/-- Zeros may stand before the number of a pulse, but no pulse has the number zero. -/
theorem parse_spelled_zeros :
    parse (shape .sineAmplitude 12 .b).text = .ok (shape .sineAmplitude 12 .b) ∧
      Spells "start_007_a".toList (shape .start 7 .a) ∧
      ∃ e ∈ [KeyError.unknownField "start_0_a", .unknownChannel "start_0_a",
        .malformed "start_0_a"], parse "start_0_a" = .error e := by
  obtain ⟨hread, -, hspelled, herror⟩ := parse_spelled
  refine ⟨hread _ ?_, (hspelled _ _).mp rfl, herror _ ?_⟩
  · rintro i ⟨⟩
    decide
  · intro k hk
    have hzero : parse "start_0_a" = .error (.malformed "start_0_a") := rfl
    rw [(hspelled _ k).mpr hk] at hzero
    cases hzero

/-! ## Zeros before a number -/

/-- A digit denotes a number below ten and is how the number is written. -/
theorem toDigits_digit {x : Char} (hx : x.isDigit = true) :
    x.toNat - '0'.toNat < 10 ∧ Nat.toDigits 10 (x.toNat - '0'.toNat) = [x] := by
  obtain ⟨hlo, hhi⟩ : 48 ≤ x.toNat ∧ x.toNat ≤ 57 := by
    simpa [Char.isDigit, UInt32.le_iff_toNat_le] using hx
  have hlt : x.toNat - '0'.toNat < 10 := by
    show x.toNat - 48 < 10
    omega
  have hchar : (x.toNat - '0'.toNat).digitChar.toNat = x.toNat := by
    rw [Nat.toNat_digitChar_of_lt_ten hlt]
    show 48 + (x.toNat - 48) = x.toNat
    omega
  exact ⟨hlt, by rw [Nat.toDigits_of_lt_base hlt, Char.toNat_inj.mp hchar]⟩

/-- Digits after a positive number go on writing it. -/
theorem toDigits_append_digits {digits : List Char} (h : ∀ x ∈ digits, x.isDigit = true) {n : Nat}
    (hn : 0 < n) :
    Nat.toDigits 10 n ++ digits = Nat.toDigits 10 (Nat.ofDigitChars 10 digits n) := by
  induction digits generalizing n with
  | nil => rw [List.append_nil, Nat.ofDigitChars_nil]
  | cons x digits ih =>
    obtain ⟨hlt, hx⟩ := toDigits_digit (h x List.mem_cons_self)
    rw [Nat.ofDigitChars_cons, ← ih (fun y hy => h y (List.mem_cons_of_mem x hy)) (by omega),
      ← Nat.toDigits_append_toDigits (by decide) hn hlt, hx, List.append_assoc]
    rfl

/-- Digits are those of their number with zeros before them. -/
theorem eq_zeros_append {digits : List Char} (hne : digits ≠ [])
    (h : ∀ x ∈ digits, x.isDigit = true) :
    ∃ zeros, digits =
      List.replicate zeros '0' ++ Nat.toDigits 10 (Nat.ofDigitChars 10 digits 0) := by
  induction digits with
  | nil => exact absurd rfl hne
  | cons x digits ih =>
    obtain ⟨-, hx⟩ := toDigits_digit (h x List.mem_cons_self)
    have hdigits : ∀ y ∈ digits, y.isDigit = true := fun y hy => h y (List.mem_cons_of_mem x hy)
    rw [Nat.ofDigitChars_cons, Nat.mul_zero, Nat.zero_add]
    by_cases hzero : x.toNat - '0'.toNat = 0
    · rw [hzero] at hx ⊢
      obtain rfl : '0' = x := by simpa using hx
      by_cases hnil : digits = []
      · exact ⟨0, by rw [hnil]; rfl⟩
      · obtain ⟨zeros, hzeros⟩ := ih hnil hdigits
        refine ⟨zeros + 1, ?_⟩
        rw [List.replicate_succ, List.cons_append, ← hzeros]
    · -- the first digit is not zero, so the number begins with it
      refine ⟨0, ?_⟩
      rw [← toDigits_append_digits hdigits (Nat.pos_of_ne_zero hzero), hx]
      rfl

/-- The text of a key of a pulse with zeros before the number of the pulse. -/
def padded (zeros : Nat) (q : ShapeQuantity) (i : Nat) (ch : Channel) : String :=
  String.ofList
    (q.name.toList ++ '_' :: (List.replicate zeros '0' ++ Nat.toDigits 10 i) ++ ['_', ch.letter])

/-- A text with zeros before the number of a pulse is not the text of a key. -/
theorem padded_ne_text {zeros : Nat} (hzeros : 0 < zeros) (q : ShapeQuantity) (i : Nat)
    (ch : Channel) (k : Key) : padded zeros q i ch ≠ k.text := by
  intro h
  have hfree : '_' ∉ List.replicate zeros '0' ++ Nat.toDigits 10 i := by
    rw [List.mem_append, not_or]
    exact ⟨fun hmem => absurd (List.eq_of_mem_replicate hmem) (by decide),
      Nat.underscore_not_in_toDigits⟩
  have hcut := Text.splitLast?_append q.name.toList hfree
  have hchars := String.ofList_inj.mp h
  cases k with
  | lens q' => exact Quantity.name_ne_append_suffix (.lens q') _ ch hchars.symm
  | background ch' =>
    obtain ⟨hbody, -⟩ := eq_of_append_suffix hchars
    rw [hbody, splitLast?_background] at hcut
    cases hcut
  | shape q' j ch' =>
    obtain ⟨hbody, rfl⟩ := eq_of_append_suffix hchars
    rw [hbody, splitLast?_number] at hcut
    obtain ⟨-, hdigits⟩ := Prod.mk.inj (Option.some.inj hcut)
    -- both runs of digits are the same number, but one is longer
    obtain rfl : j = i := by
      have hnumber := congrArg (Nat.ofDigitChars 10 · 0) hdigits
      simpa [Nat.ofDigitChars_append, Nat.ofDigitChars_ten_toDigits] using hnumber
    have hlength := congrArg List.length hdigits
    rw [List.length_append, List.length_replicate] at hlength
    omega

/-- A key is spelled as it is written, or with zeros before the number of its pulse. -/
theorem spells_iff {text : List Char} {k : Key} :
    Spells text k ↔ k.Numbered ∧ (text = k.chars ∨
      ∃ zeros q i ch, 0 < zeros ∧ k = shape q i ch ∧ text = (padded zeros q i ch).toList) := by
  constructor
  · intro h
    cases h with
    | lens q => exact ⟨nofun, .inl rfl⟩
    | background ch => exact ⟨nofun, .inl rfl⟩
    | @shape q digits ch hne hdigits hpos hlt =>
      refine ⟨by rintro i ⟨⟩; exact ⟨hpos, hlt⟩, ?_⟩
      obtain ⟨zeros, hzeros⟩ := eq_zeros_append hne hdigits
      rcases Nat.eq_zero_or_pos zeros with rfl | hmany
      · left
        show _ = q.name.toList ++ '_' :: Nat.toDigits 10 (Nat.ofDigitChars 10 digits 0) ++ _
        rw [← List.nil_append (Nat.toDigits 10 _), ← List.replicate_zero, ← hzeros]
      · right
        refine ⟨zeros, q, _, ch, hmany, rfl, ?_⟩
        rw [padded, ← hzeros, String.toList_ofList]
  · rintro ⟨hk, rfl | ⟨zeros, q, i, ch, -, rfl, rfl⟩⟩
    · exact spells_chars hk
    · obtain ⟨hpos, hlt⟩ := hk i rfl
      have hnumber : Nat.ofDigitChars 10 (List.replicate zeros '0' ++ Nat.toDigits 10 i) 0 = i := by
        rw [Nat.ofDigitChars_append, Nat.ofDigitChars_replicate_zero, Nat.mul_zero]
        exact Nat.ofDigitChars_ten_toDigits
      have hdigits : ∀ x ∈ List.replicate zeros '0' ++ Nat.toDigits 10 i, x.isDigit = true := by
        intro x hx
        rcases List.mem_append.mp hx with hx | hx
        · rw [List.eq_of_mem_replicate hx]
          decide
        · exact Nat.isDigit_of_mem_toDigits (by decide) (by decide) hx
      have hs := Spells.shape q ch (List.append_ne_nil_of_right_ne_nil _ Nat.toDigits_ne_nil)
        hdigits (by rw [hnumber]; exact hpos) (by rw [hnumber]; exact hlt)
      rwa [hnumber, ← String.toList_ofList (l := _ ++ _)] at hs

/-- A text is read as a key if it is that of the key, or that with zeros before the number. -/
theorem parse_eq_ok_iff_text {s : String} {k : Key} :
    parse s = .ok k ↔ k.Numbered ∧ (s = k.text ∨
      ∃ zeros q i ch, 0 < zeros ∧ k = shape q i ch ∧ s = padded zeros q i ch) := by
  have htext : s.toList = k.chars ↔ s = k.text := by
    rw [← String.toList_inj, text, String.toList_ofList]
  rw [parse_eq_ok_iff, spells_iff, htext]
  simp only [String.toList_inj]

theorem parse_padded {zeros : Nat} {q : ShapeQuantity} {i : Nat} {ch : Channel}
    (h : (shape q i ch).Numbered) : parse (padded zeros q i ch) = .ok (shape q i ch) := by
  rcases Nat.eq_zero_or_pos zeros with rfl | hzeros
  · exact parse_text h
  · exact parse_eq_ok_iff_text.mpr ⟨h, .inr ⟨zeros, q, i, ch, hzeros, rfl, rfl⟩⟩

/-! ## The channel of a text -/

/-- A text that is read as a parameter of a channel ends in the letter of the channel. -/
theorem exists_suffix_of_parse {s : String} {k : Key} {ch : Channel} (h : parse s = .ok k)
    (hch : k.channel? = some ch) : ∃ body, s.toList = body ++ ['_', ch.letter] := by
  have hs := parse_eq_ok_iff.mp h
  generalize s.toList = text at hs ⊢
  cases hs with
  | lens q => cases hch
  | background ch' =>
    cases hch
    exact ⟨Quantity.background.name.toList, rfl⟩
  | shape q ch' =>
    cases hch
    exact ⟨_, rfl⟩

/-- The text of a key is read as a parameter of the channel of the key, or not at all. -/
theorem channel?_of_parse_text {k l : Key} {ch : Channel} (h : parse k.text = .ok l)
    (hch : l.channel? = some ch) : k.channel? = some ch := by
  obtain ⟨body, hbody⟩ := exists_suffix_of_parse h hch
  rw [text, String.toList_ofList] at hbody
  cases k with
  | lens q => exact absurd hbody (Quantity.name_ne_append_suffix (.lens q) body ch)
  | background ch' => exact congrArg some (eq_of_append_suffix hbody).2
  | shape q i ch' => exact congrArg some (eq_of_append_suffix hbody).2

end Key

end PulseFit
