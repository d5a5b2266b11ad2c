import PulseFit.Assignment
import PulseFit.Proofs.Key

/-!
# Proofs.Assignment — assignments of pairs

An assignment of pairs has a value for the names of the pairs and for no other.  Pairs that agree on
the value of a name give it that value, in whatever order they come.  Names may be replaced by
others that are different for different names; the values stay (`getElem?_rename`).
-/

namespace PulseFit.Assignment

variable {α : Type}

theorem mem_foldl_insert {pairs : List (String × α)} {p : Assignment α} {name : String} :
    name ∈ pairs.foldl (fun p (name, x) => p.insert name x) p ↔
      name ∈ p ∨ name ∈ pairs.map (·.1) := by
  induction pairs generalizing p with
  | nil => simp
  | cons pair pairs ih =>
    rw [List.foldl_cons, ih, Std.ExtTreeMap.mem_insert, List.map_cons, List.mem_cons,
      Std.LawfulEqCmp.compare_eq_iff_eq, eq_comm (a := pair.1), or_assoc, or_left_comm]

theorem mem_ofPairs {pairs : List (String × α)} {name : String} :
    name ∈ ofPairs pairs ↔ name ∈ pairs.map (·.1) := by
  rw [ofPairs, mem_foldl_insert]
  exact or_iff_right Std.ExtTreeMap.not_mem_empty

/-- Pairs of different names that are new are all kept. -/
theorem size_foldl_insert {pairs : List (String × α)} {p : Assignment α}
    (hnodup : (pairs.map (·.1)).Nodup) (hnew : ∀ name ∈ pairs.map (·.1), name ∉ p) :
    (pairs.foldl (fun p (name, x) => p.insert name x) p).size = p.size + pairs.length := by
  induction pairs generalizing p with
  | nil => rfl
  | cons pair pairs ih =>
    rw [List.map_cons, List.nodup_cons] at hnodup
    rw [List.map_cons, List.forall_mem_cons] at hnew
    have hrest : ∀ name ∈ pairs.map (·.1), name ∉ p.insert pair.1 pair.2 := by
      intro name hname hmem
      rw [Std.ExtTreeMap.mem_insert, Std.LawfulEqCmp.compare_eq_iff_eq] at hmem
      rcases hmem with rfl | hmem
      · exact hnodup.1 hname
      · exact hnew.2 name hname hmem
    have hsize : (p.insert pair.1 pair.2).size = p.size + 1 := by
      rw [Std.ExtTreeMap.size_insert, if_neg (mt Std.ExtTreeMap.contains_iff_mem.mp hnew.1)]
    rw [List.foldl_cons, ih hnodup.2 hrest, hsize, List.length_cons]
    omega

theorem size_ofPairs {pairs : List (String × α)} (h : (pairs.map (·.1)).Nodup) :
    (ofPairs pairs).size = pairs.length := by
  rw [ofPairs, size_foldl_insert h fun _ _ => Std.ExtTreeMap.not_mem_empty]
  exact Nat.zero_add _

theorem getElem?_insert {p : Assignment α} {name other : String} {x : α} :
    (p.insert name x)[other]? = if name = other then some x else p[other]? := by
  rw [Std.ExtTreeMap.getElem?_insert]
  simp only [Std.LawfulEqCmp.compare_eq_iff_eq]

/-- A name that is in no pair keeps its value. -/
theorem getElem?_foldl_insert_of_notMem {pairs : List (String × α)} {p : Assignment α}
    {name : String} (h : name ∉ pairs.map (·.1)) :
    (pairs.foldl (fun p (name, x) => p.insert name x) p)[name]? = p[name]? := by
  induction pairs generalizing p with
  | nil => rfl
  | cons pair pairs ih =>
    rw [List.map_cons, List.mem_cons, not_or] at h
    rw [List.foldl_cons, ih h.2, getElem?_insert, if_neg (Ne.symm h.1)]

/-- A name whose pairs all have one value has that value. -/
theorem getElem?_foldl_insert {pairs : List (String × α)} {p : Assignment α} {name : String}
    {x : α} (hpairs : ∀ pair ∈ pairs, pair.1 = name → pair.2 = x)
    (h : name ∈ pairs.map (·.1) ∨ p[name]? = some x) :
    (pairs.foldl (fun p (name, x) => p.insert name x) p)[name]? = some x := by
  induction pairs generalizing p with
  | nil => simpa using h
  | cons pair pairs ih =>
    refine ih (fun q hq => hpairs q (List.mem_cons_of_mem _ hq)) ?_
    rw [getElem?_insert]
    by_cases hname : pair.1 = name
    · right
      rw [if_pos hname, hpairs pair List.mem_cons_self hname]
    · rw [List.map_cons, List.mem_cons] at h
      rw [if_neg hname]
      exact h.imp_left fun h => h.resolve_left (Ne.symm hname)

/-- Of the pairs with one name the last one holds. -/
theorem getElem?_ofPairs_of_last {pairs : List (String × α)} {i : Nat} {name : String} {x : α}
    (hpair : pairs[i]? = some (name, x))
    (hlast : ∀ j y, i < j → pairs[j]? ≠ some (name, y)) : (ofPairs pairs)[name]? = some x := by
  obtain ⟨hi, hget⟩ := List.getElem?_eq_some_iff.mp hpair
  have hsplit : pairs = pairs.take i ++ (name, x) :: pairs.drop (i + 1) := by
    rw [← hget, ← List.drop_eq_getElem_cons hi, List.take_append_drop]
  have hafter : name ∉ (pairs.drop (i + 1)).map (·.1) := by
    intro hname
    obtain ⟨⟨_, y⟩, hy, rfl⟩ := List.mem_map.mp hname
    obtain ⟨j, hj⟩ := List.mem_iff_getElem?.mp hy
    rw [List.getElem?_drop] at hj
    exact hlast (i + 1 + j) y (by omega) hj
  rw [hsplit, ofPairs, List.foldl_append, List.foldl_cons, getElem?_foldl_insert_of_notMem hafter,
    getElem?_insert, if_pos rfl]

/-- The assignment of the values of keys gives each of them its value. -/
theorem getElem?_ofPairs_text {keys : List Key} (value : Key → α) {k : Key} (hk : k ∈ keys) :
    (ofPairs (keys.map fun k => (k.text, value k)))[k.text]? = some (value k) := by
  refine getElem?_foldl_insert (fun pair hpair hname => ?_) (.inl ?_)
  · obtain ⟨l, -, rfl⟩ := List.mem_map.mp hpair
    rw [Key.text_injective hname]
  · rw [List.map_map]
    exact List.mem_map_of_mem hk

/-! ## Other names -/

/-- The assignment of the same values to other names. -/
def rename (f : String → String) (p : Assignment α) : Assignment α :=
  ofPairs (p.toList.map fun (name, x) => (f name, x))

/-- Under its new name a parameter has the value that it had. -/
theorem getElem?_rename {f : String → String} (hf : Function.Injective f) (p : Assignment α)
    (name : String) : (p.rename f)[f name]? = p[name]? := by
  cases h : p[name]? with
  | some x =>
    refine getElem?_foldl_insert (fun pair hpair hname => ?_) (.inl ?_)
    · obtain ⟨⟨other, y⟩, hmem, rfl⟩ := List.mem_map.mp hpair
      obtain rfl : other = name := hf hname
      have hy := Std.ExtTreeMap.mem_toList_iff_getElem?_eq_some.mp hmem
      exact Option.some.inj (hy.symm.trans h)
    · rw [List.map_map]
      exact List.mem_map_of_mem (Std.ExtTreeMap.mem_toList_iff_getElem?_eq_some.mpr h)
  | none =>
    refine Std.ExtTreeMap.getElem?_eq_none fun hmem => ?_
    rw [rename, mem_ofPairs, List.map_map] at hmem
    obtain ⟨⟨other, y⟩, hy, hname⟩ := List.mem_map.mp hmem
    obtain rfl : other = name := hf hname
    have hy := Std.ExtTreeMap.mem_toList_iff_getElem?_eq_some.mp hy
    cases h.symm.trans hy

end PulseFit.Assignment
