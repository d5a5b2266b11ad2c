import Mathlib.Data.List.Permutation
import PulseFit.Proofs.Model.Lists
import PulseFit.Proofs.Model.Reading

/-!
# Proofs.Model.RoundTrip — the canonical model key

Every model has one canonical key, from which it is decoded again up to its name, also if it was
made of index lists in any order.  A key that is not canonical differs from it only in where and how
often it says that there is a lens (`canonical_key`).
-/

namespace PulseFit.Model

theorem letters_eq (m : Model) :
    m.letters = row m.pulses ++ if m.lensed then [lensLetter] else [] := rfl

theorem toList_key (m : Model) : m.key.toList = m.letters := String.toList_ofList

theorem lensLetter_notMem_row (pulses : List Pulse) : lensLetter ∉ row pulses := by
  intro h
  obtain ⟨s, hs⟩ | ⟨r, hr⟩ := letter_of_mem_row h
  · exact s.letter_ne_lensLetter hs.symm
  · exact r.letter_ne_lensLetter hr.symm

theorem contains_letters (m : Model) : m.letters.contains lensLetter = m.lensed := by
  have hrow := lensLetter_notMem_row m.pulses
  rw [letters_eq]
  cases m.lensed <;> simp [hrow]

theorem withoutLens_letters (m : Model) : withoutLens m.letters = row m.pulses := by
  rw [letters_eq, withoutLens_append, withoutLens_row]
  cases m.lensed <;> simp

/-- The letters of a decoded key are its own, with those of the lens moved to the end. -/
theorem letters_of_decode {text : List Char} {m : Model} (h : decodeLetters text = .ok m) :
    m.letters = withoutLens text ++ if lensLetter ∈ text then [lensLetter] else [] := by
  obtain ⟨hrow, hlensed, -⟩ := decodeLetters_eq_ok_iff.mp h
  rw [letters_eq, hrow, hlensed]
  simp

/-- The canonical key is decoded to the model, less its name. -/
theorem decode_key (m : Model) : decode m.key = .ok { m with name := none } := by
  rw [decode, toList_key, decodeLetters_eq_ok_iff]
  exact ⟨(withoutLens_letters m).symm, (contains_letters m).symm, rfl⟩

/-- A decoded key and the key of what it is decoded to have the same letters, but one `L` at the end
stands for all that there were.  The key of any model, and of one made of lists in whatever order,
is decoded to that model without its name. -/
theorem canonical_key :
    (∀ (key : String) (m : Model), decode key = .ok m →
      m.key = String.ofList (key.toList.filter (· ≠ 'L') ++
        if 'L' ∈ key.toList then ['L'] else [])) ∧
    (∀ m : Model, decode m.key = .ok { m with name := none }) ∧
    (∀ (lensed : Bool) (l : IndexLists) (m : Model), ofLists lensed l = .ok m →
      decode m.key = .ok m ∧ m.lensed = lensed ∧ ∀ c, m.indices c = (l.get c).mergeSort) := by
  refine ⟨fun key m h => congrArg String.ofList (letters_of_decode h), decode_key, ?_⟩
  intro lensed l m h
  have hm := (describes_of_ofLists h).2
  refine ⟨?_, by rw [hm], indices_of_ofLists h⟩
  rw [decode_key, hm]

/-- A key with two lens letters, and lists out of order. -/
theorem canonical_key_FbGFbL :
    (decode "LFbGLFb" =
        .ok ⟨true, [⟨.fred, some .bessel⟩, ⟨.gaussian, none⟩, ⟨.fred, some .bessel⟩], none⟩ ∧
      Model.key ⟨true, [⟨.fred, some .bessel⟩, ⟨.gaussian, none⟩, ⟨.fred, some .bessel⟩], none⟩ =
        String.ofList ("LFbGLFb".toList.filter (· ≠ 'L') ++
          if 'L' ∈ "LFbGLFb".toList then ['L'] else [])) ∧
    ∃ m, ofLists true { fred := [3, 1], gaussian := [2], bessel := [3, 1] } = .ok m ∧
      decode m.key = .ok m ∧ m.indices (.pulse .fred) = [3, 1].mergeSort := by
  refine ⟨⟨rfl, canonical_key.1 "LFbGLFb" _ rfl⟩, ?_⟩
  have h : ofLists true { fred := [3, 1], gaussian := [2], bessel := [3, 1] } =
      .ok ⟨true, [⟨.fred, some .bessel⟩, ⟨.gaussian, none⟩, ⟨.fred, some .bessel⟩], none⟩ := by
    cbv
  obtain ⟨hkey, -, hlists⟩ := canonical_key.2.2 _ _ _ h
  exact ⟨_, h, hkey, hlists (.pulse .fred)⟩

end PulseFit.Model
