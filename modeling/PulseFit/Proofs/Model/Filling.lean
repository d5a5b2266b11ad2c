import PulseFit.Model.Record
import PulseFit.Proofs.Model.Lists
import PulseFit.Proofs.Model.Reading

/-!
# Proofs.Model.Filling — filling lists while a key is read

Reading a key into lists keeps pace with reading it into pulses.  `Filling.ofPulses` says what has
been filled when some pulses have been read; one character does to it what it does to the pulses
(`letter?_ofPulses`), so in the end the lists are those of the model (`Record.ofKey?_eq`).  In
particular there is always an entry for the latest pulse.
-/

namespace PulseFit

theorem IndexLists.ext_get {l l' : IndexLists} (h : ∀ c, l.get c = l'.get c) : l = l' :=
  congrArg IndexLists.ofFn (funext h)

theorem IndexLists.get_push (l : IndexLists) (c c' : Component) (i : Nat) :
    (l.push c i).get c' = if c' = c then l.get c' ++ [i] else l.get c' :=
  get_ofFn _ c'

/-- A pulse more is listed under its number for the components that it has. -/
theorem Model.indices_concat (pulses : List Pulse) (p : Pulse) (c : Component) :
    Model.indices ⟨false, pulses ++ [p], none⟩ c =
      Model.indices ⟨false, pulses, none⟩ c ++ if p.has c then [pulses.length + 1] else [] := by
  simp only [Model.indices, Model.numbered, List.zipIdx_append, List.filter_append, List.map_append]
  cases hc : p.has c <;> simp [hc, Nat.add_comm]

namespace Filling

/-- The lists of pulses, the number of the latest of them and which have a residual. -/
def ofPulses (pulses : List Pulse) : Filling where
  lists := Model.lists ⟨false, pulses, none⟩
  latest := if pulses = [] then none else some pulses.length
  owned := pulses.map (·.residual.isSome)

variable (pulses : List Pulse)

theorem get_ofPulses (c : Component) :
    (ofPulses pulses).lists.get c = Model.indices ⟨false, pulses, none⟩ c :=
  Model.get_lists _ c

theorem latest_concat (p : Pulse) :
    (ofPulses (pulses ++ [p])).latest = some (pulses.length + 1) := by
  simp [ofPulses]

theorem owned_concat (p : Pulse) :
    (ofPulses (pulses ++ [p])).owned = (ofPulses pulses).owned ++ [p.residual.isSome] := by
  simp [ofPulses]

theorem next_latest : ((ofPulses pulses).latest.map (· + 1)).getD 1 = pulses.length + 1 := by
  cases pulses <;> simp [ofPulses]

/-- Pushing to the list of its shape takes up a pulse. -/
theorem ofPulses_pulse (s : PulseShape) :
    ofPulses (pulses ++ [⟨s, none⟩]) =
      { lists := (ofPulses pulses).lists.push (.pulse s) (pulses.length + 1)
        latest := some (pulses.length + 1)
        owned := (ofPulses pulses).owned ++ [false] } := by
  have hlists : (ofPulses (pulses ++ [⟨s, none⟩])).lists =
      (ofPulses pulses).lists.push (.pulse s) (pulses.length + 1) := by
    refine IndexLists.ext_get fun c => ?_
    rw [IndexLists.get_push, get_ofPulses, get_ofPulses, Model.indices_concat]
    cases c with
    | pulse s' =>
      by_cases hs : s = s'
      · simp [hs]
      · simp [hs, Ne.symm hs]
    | residual r => simp
  rw [← hlists, ← latest_concat pulses ⟨s, none⟩]
  exact congrArg (Filling.mk _ _) (owned_concat pulses ⟨s, none⟩)

/-- Pushing to the list of a residual puts it on the latest pulse. -/
theorem ofPulses_residual (s : PulseShape) (r : ResidualShape) :
    ofPulses (pulses ++ [⟨s, some r⟩]) =
      { lists := (ofPulses (pulses ++ [⟨s, none⟩])).lists.push (.residual r) (pulses.length + 1)
        latest := some (pulses.length + 1)
        owned := (ofPulses (pulses ++ [⟨s, none⟩])).owned.set pulses.length true } := by
  have hlists : (ofPulses (pulses ++ [⟨s, some r⟩])).lists =
      (ofPulses (pulses ++ [⟨s, none⟩])).lists.push (.residual r) (pulses.length + 1) := by
    refine IndexLists.ext_get fun c => ?_
    rw [IndexLists.get_push, get_ofPulses, get_ofPulses, Model.indices_concat,
      Model.indices_concat]
    cases c with
    | pulse s' => simp
    | residual r' =>
      by_cases hr : r = r'
      · simp [hr]
      · simp [hr, Ne.symm hr]
  have howned : (ofPulses (pulses ++ [⟨s, some r⟩])).owned =
      (ofPulses (pulses ++ [⟨s, none⟩])).owned.set pulses.length true := by
    simp [ofPulses]
  rw [← hlists, ← howned, ← latest_concat pulses ⟨s, some r⟩]

end Filling

namespace Model

/-- What one character does to the pulses read so far, the latest first. -/
def takeUp (position : Nat) (done : List Pulse) (x : Char) : Except ModelError (List Pulse) :=
  if x = lensLetter then .ok done
  else
    match PulseShape.ofLetter? x with
    | some shape => .ok ({ shape } :: done)
    | none =>
      match ResidualShape.ofLetter? x with
      | none => .error (.unknownCharacter position x)
      | some residual =>
        match done with
        | [] => .error (.orphanResidual position x)
        | latest :: earlier =>
          if latest.residual.isSome then .error (.duplicateResidual done.length)
          else .ok ({ latest with residual := some residual } :: earlier)

theorem scan_eq_takeUp (position : Nat) (done : List Pulse) (x : Char) (rest : List Char) :
    scan position done (x :: rest) =
      (takeUp position done x).bind fun done' => scan (position + 1) done' rest := by
  rw [scan, takeUp]
  by_cases hL : x = lensLetter
  · rw [if_pos hL, if_pos hL]
    rfl
  rw [if_neg hL, if_neg hL]
  cases PulseShape.ofLetter? x with
  | some shape => rfl
  | none =>
    cases ResidualShape.ofLetter? x with
    | none => rfl
    | some residual =>
      cases done with
      | nil => rfl
      | cons latest earlier => cases h : latest.residual.isSome <;> simp [h, Except.bind]

end Model

namespace Filling

/-- One character does to the lists what it does to the pulses. -/
theorem letter?_ofPulses (position : Nat) (done : List Pulse) (x : Char) :
    (ofPulses done.reverse).letter? position x =
      some ((Model.takeUp position done x).map fun done' => ofPulses done'.reverse) := by
  rw [letter?, Model.takeUp]
  by_cases hL : x = Model.lensLetter
  · rw [if_pos hL, if_pos hL]
    rfl
  rw [if_neg hL, if_neg hL]
  cases PulseShape.ofLetter? x with
  | some shape =>
    show some (Except.ok _) = some (Except.ok (ofPulses ({ shape } :: done).reverse))
    rw [next_latest, List.reverse_cons, ofPulses_pulse]
  | none =>
    cases ResidualShape.ofLetter? x with
    | none => rfl
    | some residual =>
      cases done with
      | nil => rfl
      | cons latest earlier =>
        obtain ⟨shape, residual?⟩ := latest
        have howned : (ofPulses (earlier.reverse ++ [⟨shape, residual?⟩])).owned[earlier.length]? =
            some residual?.isSome := by
          simp [ofPulses]
        rw [List.reverse_cons, latest_concat, List.length_reverse]
        simp only [Nat.add_sub_cancel, howned]
        cases residual? with
        | some r => rfl
        | none =>
          show some (Except.ok _) =
            some (Except.ok (ofPulses (⟨shape, some residual⟩ :: earlier).reverse))
          rw [List.reverse_cons, ofPulses_residual, List.length_reverse]

/-- Reading the characters fills the lists of the pulses that they spell. -/
theorem letters?_ofPulses (position : Nat) (done : List Pulse) (text : List Char) :
    (ofPulses done.reverse).letters? position text =
      some ((Model.scan position done text).map ofPulses) := by
  induction text generalizing position done with
  | nil => rfl
  | cons x rest ih =>
    rw [letters?, letter?_ofPulses, Model.scan_eq_takeUp]
    cases Model.takeUp position done x with
    | error e => rfl
    | ok done' => exact ih (position + 1) done'

end Filling

/-- The record that is filled while a key is read is that of the model of the key, and a key that is
refused is refused with the same error. -/
theorem Record.ofKey?_eq (key : String) :
    Record.ofKey? key = some ((Model.decode key).map Model.record) := by
  have hstart : (Filling.ofPulses [].reverse) = {} := rfl
  rw [Record.ofKey?, ← hstart, Filling.letters?_ofPulses, Model.decode, Model.decodeLetters]
  cases Model.scan 0 [] key.toList with
  | error e => rfl
  | ok pulses => rfl

end PulseFit
