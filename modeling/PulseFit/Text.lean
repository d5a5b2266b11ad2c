/-!
# Text — cutting and writing lists of characters

`splitLast?` cuts a text at the last occurrence of a character.  It finds the one cut whose second
part is free of that character (`splitLast?_append`).
-/

namespace PulseFit.Text

/-- Cuts at the last `sep`; `none` where the text has no `sep`. -/
def splitLast? (sep : Char) : List Char → Option (List Char × List Char)
  | [] => none
  | x :: rest =>
    match splitLast? sep rest with
    | some (front, back) => some (x :: front, back)
    | none => if x = sep then some ([], rest) else none

theorem splitLast?_eq_none {sep : Char} {text : List Char} (h : sep ∉ text) :
    splitLast? sep text = none := by
  induction text with
  | nil => rfl
  | cons x rest ih =>
    simp only [List.mem_cons, not_or] at h
    simp [splitLast?, ih h.2, Ne.symm h.1]

theorem splitLast?_append {sep : Char} (front : List Char) {back : List Char} (h : sep ∉ back) :
    splitLast? sep (front ++ sep :: back) = some (front, back) := by
  induction front with
  | nil => simp [splitLast?, splitLast?_eq_none h]
  | cons x front ih => simp [splitLast?, ih]

theorem eq_append_of_splitLast? {sep : Char} {text front back : List Char}
    (h : splitLast? sep text = some (front, back)) : text = front ++ sep :: back := by
  induction text generalizing front back with
  | nil => simp [splitLast?] at h
  | cons x rest ih =>
    rw [splitLast?] at h
    split at h
    · next f b hr =>
      obtain ⟨rfl, rfl⟩ : x :: f = front ∧ b = back := by simpa using h
      rw [ih hr, List.cons_append]
    · split at h
      · next hx =>
        obtain ⟨rfl, rfl⟩ : [] = front ∧ rest = back := by simpa using h
        rw [hx, List.nil_append]
      · simp at h

/-- Numbers between square brackets, separated by a comma and a blank. -/
def bracketed (numbers : List Nat) : String :=
  "[" ++ ", ".intercalate (numbers.map toString) ++ "]"

end PulseFit.Text
