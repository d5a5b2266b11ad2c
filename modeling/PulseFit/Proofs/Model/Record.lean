import PulseFit.Proofs.Model.Faults
import PulseFit.Proofs.Model.Filling

/-!
# Proofs.Model.Record — all ways to make a model agree

A model can be read from a key, which fills lists and checks nothing afterwards, or made of given
lists, which are sorted and checked.  Either way its lists are in order, share out its pulses and
answer what is asked of them as the model does (`wellFormed_record`); hence they pass the checks,
make the same model again and are printed as its key (`key_record`).
-/

namespace PulseFit

theorem eraseReps_loop_of_nodup {a : Nat} {xs : List Nat} (h : (a :: xs).Nodup) (acc : List Nat) :
    List.eraseRepsBy.loop (· == ·) a xs acc = acc.reverse ++ a :: xs := by
  induction xs generalizing a acc with
  | nil => simp [List.eraseRepsBy.loop]
  | cons b xs ih =>
    obtain ⟨ha, hrest⟩ := List.nodup_cons.mp h
    have hab : (a == b) = false := by
      rw [beq_eq_false_iff_ne]
      exact fun hab => ha (hab ▸ List.mem_cons_self)
    simp [List.eraseRepsBy.loop, hab, ih hrest]

theorem eraseReps_of_nodup {xs : List Nat} (h : xs.Nodup) : xs.eraseReps = xs := by
  cases xs with
  | nil => rfl
  | cons a xs => exact eraseReps_loop_of_nodup h []

/-! ## What can be asked of lists -/

namespace IndexLists

variable {l : IndexLists} {size : Nat}

theorem le_maxPulse {s : PulseShape} {i : Nat} (h : i ∈ l.get (.pulse s)) : i ≤ l.maxPulse := by
  obtain ⟨top, htop⟩ := Option.isSome_iff_exists.mp (List.isSome_max?_of_mem h)
  have hmem : top ∈ PulseShape.all.filterMap fun s => (l.get (.pulse s)).max? :=
    List.mem_filterMap.mpr ⟨s, s.mem_all, htop⟩
  obtain ⟨most, hmost⟩ := Option.isSome_iff_exists.mp (List.isSome_max?_of_mem hmem)
  rw [maxPulse, hmost]
  exact Nat.le_trans ((List.max?_eq_some_iff.mp htop).2 i h)
    ((List.max?_eq_some_iff.mp hmost).2 top hmem)

theorem exists_mem_maxPulse (h : 0 < l.maxPulse) : ∃ s, l.maxPulse ∈ l.get (.pulse s) := by
  rw [maxPulse] at h ⊢
  cases hmost : (PulseShape.all.filterMap fun s => (l.get (.pulse s)).max?).max? with
  | none =>
    rw [hmost] at h
    exact absurd h (Nat.lt_irrefl 0)
  | some most =>
    obtain ⟨s, -, hs⟩ := List.mem_filterMap.mp (List.max?_eq_some_iff.mp hmost).1
    exact ⟨s, (List.max?_eq_some_iff.mp hs).1⟩

/-- The greatest number is the number of pulses. -/
theorem Describes.maxPulse_eq (h : l.Describes size) : l.maxPulse = size := by
  have hmem : ∀ i, (∃ s, i ∈ l.get (.pulse s)) ↔ 1 ≤ i ∧ i ≤ size := by
    intro i
    rw [← mem_pulseNumbers, h.numbers, List.mem_range'_1]
    omega
  apply Nat.le_antisymm
  · by_cases hpos : 0 < l.maxPulse
    · exact ((hmem _).mp (exists_mem_maxPulse hpos)).2
    · omega
  · by_cases hpos : 0 < size
    · obtain ⟨s, hs⟩ := (hmem size).mpr ⟨hpos, Nat.le_refl size⟩
      exact le_maxPulse hs
    · omega

theorem Describes.chain_eq (h : l.Describes size) : l.chain = l.owners :=
  eraseReps_of_nodup h.owners_nodup

end IndexLists

/-! ## The record of a model -/

/-- The lists of a record are those of pulses and of residuals on some of them, in order, and what
is asked of them is answered accordingly. -/
structure Record.WellFormed (r : Record) : Prop where
  ascending : ∀ c, (r.lists.get c).Pairwise (· < ·)
  /-- Each number up to the greatest stands in one pulse list. -/
  pulses : r.lists.pulseEntries.Perm (List.range' 1 r.lists.maxPulse)
  length_pulses : r.lists.pulseEntries.length = r.lists.maxPulse
  /-- No number stands in both residual lists. -/
  owners : r.lists.ownerEntries.Nodup
  owners_inside : ∀ i ∈ r.lists.ownerEntries, 1 ≤ i ∧ i ≤ r.lists.maxPulse
  chain_ascending : r.lists.chain.Pairwise (· < ·)
  mem_chain : ∀ i, i ∈ r.lists.chain ↔ ∃ s, i ∈ r.lists.get (.residual s)
  shapeAt?_eq_some : ∀ i s, r.lists.shapeAt? i = some s ↔ i ∈ r.lists.get (.pulse s)
  shapeAt?_isSome : ∀ i, (r.lists.shapeAt? i).isSome ↔ 1 ≤ i ∧ i ≤ r.lists.maxPulse
  residualAt?_eq_some : ∀ i s, r.lists.residualAt? i = some s ↔ i ∈ r.lists.get (.residual s)
  residualAt?_isSome : ∀ i, (r.lists.residualAt? i).isSome ↔ i ∈ r.lists.chain

namespace Model

variable (m : Model)

/-! The lists of a model answer as the model does. -/

theorem maxPulse_lists : m.lists.maxPulse = m.size := m.describes_lists.maxPulse_eq

theorem shapeAt?_lists (i : Nat) : m.lists.shapeAt? i = m.shapeAt? i := by
  refine Option.ext fun s => ?_
  rw [shapeAt?_eq_some, ← get_lists]
  exact m.describes_lists.find?_pulse

theorem residualAt?_lists (i : Nat) : m.lists.residualAt? i = m.residualAt? i := by
  refine Option.ext fun r => ?_
  rw [residualAt?_eq_some, ← get_lists]
  exact m.describes_lists.find?_residual

/-- The lists of a model are printed as its pulses. -/
theorem letters_lists : m.lists.letters = m.pulses.flatMap pulseLetters := by
  rw [IndexLists.letters, maxPulse_lists, List.flatMap_def, List.flatMap_def]
  refine congrArg List.flatten (List.ext_getElem (by simp [size]) fun i hi hi' => ?_)
  rw [List.length_map] at hi'
  have hpulse : m.pulse? (1 + i) = some m.pulses[i] := by
    simp [pulse?, hi']
  rw [List.getElem_map, List.getElem_map, List.getElem_range', Nat.one_mul, shapeAt?_lists,
    residualAt?_lists, shapeAt?, residualAt?, hpulse]
  rfl

/-- Printing from the lists gives the key of the model. -/
theorem key_record : m.record.key = m.key := by
  show String.ofList (m.lists.letters ++ _) = _
  rw [letters_lists]
  rfl

theorem displayName_record : m.record.displayName = m.displayName :=
  congrArg m.name.getD m.key_record

theorem chain_lists : m.lists.chain = m.residualChain := by
  have h := m.describes_lists
  have hmem : ∀ i, i ∈ m.lists.owners ↔ i ∈ m.residualChain := by
    intro i
    simp only [IndexLists.mem_owners, mem_residualChain, get_lists]
  have hperm := (List.perm_ext_iff_of_nodup h.owners_nodup m.nodup_residualChain).mpr hmem
  rw [h.chain_eq]
  exact mergeSort_eq_of_perm ((List.mergeSort_perm _ _).symm.trans hperm)
    (m.pairwise_residualChain.imp Nat.le_of_lt)

theorem length_pulseEntries_lists : m.lists.pulseEntries.length = m.size := by
  rw [← IndexLists.length_pulseNumbers, m.describes_lists.numbers, List.length_range']

theorem partition_lists : m.lists.Partition :=
  IndexLists.partition_iff.mpr (m.length_pulseEntries_lists.symm ▸ m.describes_lists)

/-- A number has a shape exactly if it is that of a pulse. -/
theorem isSome_shapeAt? {i : Nat} : (m.shapeAt? i).isSome ↔ 1 ≤ i ∧ i ≤ m.size := by
  rw [Option.isSome_iff_exists]
  simp only [shapeAt?_eq_some]
  constructor
  · rintro ⟨s, hs⟩
    exact ⟨pos_of_mem_indices hs, le_size_of_mem_indices hs⟩
  · rintro ⟨hpos, hle⟩
    exact exists_shape_of_mem_range (List.mem_range'_1.mpr (by omega))

/-- A number has a residual exactly if it is in the chain of residuals. -/
theorem isSome_residualAt? {i : Nat} : (m.residualAt? i).isSome ↔ i ∈ m.residualChain := by
  rw [Option.isSome_iff_exists, mem_residualChain]
  exact exists_congr fun r => residualAt?_eq_some

/-- The record of a model has its lists in order, whatever way the model was made. -/
theorem wellFormed_record : m.record.WellFormed where
  ascending c := by
    show (m.lists.get c).Pairwise (· < ·)
    rw [get_lists]
    exact m.pairwise_indices c
  pulses := by
    show m.lists.pulseEntries.Perm (List.range' 1 m.lists.maxPulse)
    rw [maxPulse_lists, ← length_pulseEntries_lists]
    exact m.partition_lists.numbering
  length_pulses := m.length_pulseEntries_lists.trans m.maxPulse_lists.symm
  owners := m.partition_lists.owners_nodup
  owners_inside := by
    show ∀ i ∈ m.lists.ownerEntries, 1 ≤ i ∧ i ≤ m.lists.maxPulse
    rw [maxPulse_lists, ← length_pulseEntries_lists]
    exact m.partition_lists.owners_inside
  chain_ascending := by
    show m.lists.chain.Pairwise (· < ·)
    rw [chain_lists]
    exact m.pairwise_residualChain
  mem_chain i := by
    show i ∈ m.lists.chain ↔ ∃ s, i ∈ m.lists.get (.residual s)
    simp only [chain_lists, mem_residualChain, get_lists]
  shapeAt?_eq_some _ _ := m.describes_lists.find?_pulse
  shapeAt?_isSome i := by
    show (m.lists.shapeAt? i).isSome ↔ 1 ≤ i ∧ i ≤ m.lists.maxPulse
    rw [shapeAt?_lists, maxPulse_lists]
    exact m.isSome_shapeAt?
  residualAt?_eq_some _ _ := m.describes_lists.find?_residual
  residualAt?_isSome i := by
    show (m.lists.residualAt? i).isSome ↔ i ∈ m.lists.chain
    rw [residualAt?_lists, chain_lists]
    exact m.isSome_residualAt?

/-- The model of a record has its lists, sorted. -/
theorem record_of_ofRecord {r : Record} {m : Model} (h : ofRecord r = .ok m) :
    m.record = { r with lists := r.lists.sorted } := by
  rw [ofRecord] at h
  cases hread : ofLists r.lensed r.lists with
  | error e =>
    rw [hread] at h
    cases h
  | ok m' =>
    rw [hread] at h
    cases h
    have hlensed : m'.lensed = r.lensed := by rw [(describes_of_ofLists hread).2]
    have hlists : m'.lists = r.lists.sorted :=
      congrArg IndexLists.ofFn (funext (indices_of_ofLists hread))
    show Record.mk m'.lensed r.name m'.lists = _
    rw [hlensed, hlists]

/-- The model of its record is the model itself. -/
theorem ofRecord_record : ofRecord m.record = .ok m := by
  rw [ofRecord]
  exact congrArg (Except.map _) m.ofLists_lists

/-- The lists of a decoded key are read as the model of the key. -/
theorem ofLists_of_decode {key : String} {m : Model} (h : decode key = .ok m) :
    ofLists m.lensed m.lists = .ok m := by
  have hname : m.name = none := (decodeLetters_eq_ok_iff.mp h).2.2
  rw [ofLists_lists, ← hname]

theorem record_of_ofLists {lensed : Bool} {l : IndexLists} {m : Model}
    (h : ofLists lensed l = .ok m) : m.record = { lensed, lists := l.sorted } := by
  have hm := (describes_of_ofLists h).2
  refine record_of_ofRecord (r := { lensed, lists := l }) ?_
  rw [ofRecord, h, hm]
  rfl

/-- All ways to make a model end in sorted lists that share out its pulses, and they agree.  What is
asked of the lists is answered as by the model.  Filling lists while reading a key gives those of
its model; lists that are given are taken over sorted.  The lists of a decoded key, under whatever
name it is decoded, and the record of any model make the same model again. -/
theorem constructions_agree :
    (∀ m : Model, m.record.WellFormed) ∧
      (∀ m : Model, m.lists.maxPulse = m.size ∧ m.lists.chain = m.residualChain ∧
        ∀ i, m.lists.shapeAt? i = m.shapeAt? i ∧ m.lists.residualAt? i = m.residualAt? i) ∧
      (∀ key, Record.ofKey? key = some ((decode key).map record)) ∧
      (∀ lensed l m, ofLists lensed l = .ok m → m.record = { lensed, lists := l.sorted }) ∧
      (∀ r m, ofRecord r = .ok m → m.record = { r with lists := r.lists.sorted }) ∧
      (∀ key m, decode key = .ok m →
        ofLists m.lensed m.lists = .ok m ∧
          ∀ name, ∃ d, decodeNamed key name = .ok d ∧ d.name = some name ∧
            d.record = { m.record with name := some name } ∧
            (ofLists d.lensed d.lists).map (·.withName name) = .ok d) ∧
      ∀ m : Model, ofRecord m.record = .ok m := by
  refine ⟨wellFormed_record, fun m => ⟨m.maxPulse_lists, m.chain_lists, fun i =>
    ⟨m.shapeAt?_lists i, m.residualAt?_lists i⟩⟩, Record.ofKey?_eq, fun _ _ _ => record_of_ofLists,
    fun _ _ => record_of_ofRecord, fun key m h => ⟨ofLists_of_decode h, fun name => ?_⟩,
    ofRecord_record⟩
  refine ⟨m.withName name, congrArg (Except.map _) h, rfl, rfl, ?_⟩
  exact congrArg (Except.map (·.withName name)) (ofLists_of_decode h)

/-- A key under a name, and a record whose lists are not sorted. -/
theorem constructions_agree_named :
    (∃ d, decodeNamed "LFbGF" "burst" = .ok d ∧
      (ofLists d.lensed d.lists).map (·.withName "burst") = .ok d) ∧
      ∃ m, ofRecord { name := some "burst", lists := { fred := [3, 1], gaussian := [2] } } = .ok m ∧
        m.record =
          { name := some "burst"
            lists := IndexLists.sorted { fred := [3, 1], gaussian := [2] } } := by
  obtain ⟨-, -, -, -, hrecord, hkey, -⟩ := constructions_agree
  have hdecode : decode "LFbGF" =
      .ok ⟨true, [⟨.fred, some .bessel⟩, ⟨.gaussian, none⟩, ⟨.fred, none⟩], none⟩ := rfl
  obtain ⟨d, hd, -, -, hsame⟩ := (hkey _ _ hdecode).2 "burst"
  have hpartition : IndexLists.Partition { fred := [3, 1], gaussian := [2] } := by
    refine ⟨?_, by decide, by decide⟩
    show List.Perm [2, 3, 1] [1, 2, 3]
    decide
  obtain ⟨m, hm, -⟩ := exists_ofLists hpartition false
  have hread : ofRecord { name := some "burst", lists := { fred := [3, 1], gaussian := [2] } } =
      .ok (m.withName "burst") := congrArg (Except.map _) hm
  exact ⟨⟨d, hd, hsame⟩, _, hread, hrecord _ _ hread⟩

end Model

end PulseFit
