import PulseFit.Proofs.Scalar.Reals
import PulseFit.Proofs.Traversal
import PulseFit.Rate.Convolution

/-!
# Proofs.Rate.Convolution — both ways to convolve give the centred linear convolution

Neither way asks for an index below zero or a place outside an array, and what they add is a factor
times entries that depend on the two arrays alone (`addDirect?_eq`, `addCircular?_eq`).  In any
arithmetic the buffers of earlier calls have no part in it (`fst_addConvolutionIn?`); in exact
arithmetic the entries are those of the linear convolution: the direct sum runs over just the places
that meet, and the circular convolution of padded arrays has no wrap-around.
-/

namespace PulseFit.Rate

open Finset (range)

/-! ## Indices -/

theorem difference?_of_le {i j : ℕ} (h : j ≤ i) : difference? i j = some (i - j) := if_pos h

theorem centre?_of_pos {m : ℕ} (h : 0 < m) : centre? m = some ((m - 1) / 2) := by
  unfold centre?
  rw [difference?_of_le h]
  rfl

theorem le_two_pow_level (n : ℕ) : n ≤ 2 ^ level n := by
  unfold level
  by_cases h : n ≤ 1
  · rw [if_pos h]
    exact h
  · have hlog : n - 1 < 2 ^ ((n - 1).log2 + 1) := Nat.lt_log2_self
    rw [if_neg h]
    omega

/-! ## Arrays -/

section

variable {α : Type}

theorem not_isEmpty_or {a v : Array α} (ha : 0 < a.size) (hv : 0 < v.size) :
    ¬ (a.isEmpty || v.isEmpty) = true := by
  simp only [Bool.or_eq_true, Array.isEmpty_iff_size_eq_zero]
  omega

/-- An array with zeros at its end up to a length. -/
def padded (zero : α) (length : ℕ) (xs : Array α) : Array α :=
  xs ++ Array.replicate (length - xs.size) zero

theorem size_padded (zero : α) {length : ℕ} {xs : Array α} (h : xs.size ≤ length) :
    (padded zero length xs).size = length := by
  simp only [padded, Array.size_append, Array.size_replicate]
  omega

/-- A whole buffer is overwritten. -/
theorem toArray_overwrite {length : ℕ} (buffer : Vector α length) {xs : Array α}
    (h : xs.size = length) : (overwrite buffer xs).toArray = xs := by
  refine Array.ext (by simp [h]) fun i hi hx => ?_
  simp [overwrite, hx]

theorem slice?_eq {xs : Array α} {start count : ℕ} (h : start + count ≤ xs.size) :
    slice? xs start count = some (xs.extract start (start + count)) := if_pos h

end

section

variable {α : Type} [Scalar α] {a v : Array α}

/-! ## Direct sums -/

theorem product?_eq {i j : ℕ} (hi : i < a.size) (hij : i ≤ j) (hj : j - i < v.size) :
    product? a v j i = some (a.getD i 0.0 * v.getD (j - i) 0.0) := by
  unfold product?
  rw [difference?_of_le hij]
  simp [hi, hj]

/-- The places of the first array that meet a place of the second in entry `j`. -/
def meeting (n m j : ℕ) : List ℕ :=
  List.range' (j - (m - 1)) (min j (n - 1) + 1 - (j - (m - 1)))

theorem mem_meeting {n m j i : ℕ} (hn : 0 < n) (hm : 0 < m) :
    i ∈ meeting n m j ↔ i < n ∧ i ≤ j ∧ j - i < m := by
  unfold meeting
  rw [List.mem_range'_1]
  omega

theorem nodup_meeting (n m j : ℕ) : (meeting n m j).Nodup := List.nodup_range'

/-- The entry `j` of the full convolution. -/
def fullEntry (a v : Array α) (j : ℕ) : α :=
  (meeting a.size v.size j).foldl (fun s i => s + a.getD i 0.0 * v.getD (j - i) 0.0) 0.0

theorem fullEntry?_eq (ha : 0 < a.size) (hv : 0 < v.size) (j : ℕ) :
    fullEntry? a v j = some (fullEntry a v j) := by
  unfold fullEntry?
  rw [difference?_of_le hv, difference?_of_le ha]
  refine foldlM_eq_pure_foldl (m := Option) (fun i hi s => ?_) 0.0
  obtain ⟨hi, hij, hj⟩ := (mem_meeting ha hv).mp hi
  rw [product?_eq hi hij hj]
  rfl

/-- The direct way adds multiples of the entries from the centre on. -/
theorem addDirect?_eq (ha : 0 < a.size) (hv : 0 < v.size) (factor : α) (out : Array α) :
    addDirect? a v factor out =
      some (out.mapIdx fun k y => y + factor * fullEntry a v (k + (v.size - 1) / 2)) := by
  have hsums : (out.toList.zipIdx.mapM fun pair =>
      (pair.1 + factor * ·) <$> fullEntry? a v (pair.2 + (v.size - 1) / 2)) =
        some (out.toList.mapIdx fun k y =>
          y + factor * fullEntry a v (k + (v.size - 1) / 2)) := by
    rw [List.mapIdx_eq_zipIdx_map]
    refine mapM_eq_pure_map (m := Option) fun pair _ => ?_
    rw [fullEntry?_eq ha hv]
    rfl
  unfold addDirect?
  rw [centre?_of_pos hv]
  show (out.toList.zipIdx.mapM fun pair =>
    (pair.1 + factor * ·) <$> fullEntry? a v (pair.2 + (v.size - 1) / 2)).bind _ = _
  rw [hsums, ← Array.toList_mapIdx]
  rfl

/-! ## Circular convolutions -/

/-- What a buffer held before has no part in what it holds after loading. -/
theorem load?_eq {length : ℕ} (buffer : Vector α length) {xs : Array α} (h : xs.size ≤ length) :
    ∃ loaded, load? buffer xs = some loaded ∧ loaded.toArray = padded 0.0 length xs := by
  unfold load?
  rw [dif_pos h]
  refine ⟨_, rfl, ?_⟩
  have hfront : (buffer.toArray.extract 0 xs.size).zipWith (fun _ x => x) xs = xs := by
    refine Array.ext (by simp [h]) fun i _ _ => ?_
    simp
  have hrest : (buffer.toArray.extract xs.size).map (fun _ => (0.0 : α)) =
      Array.replicate (length - xs.size) 0.0 := by
    refine Array.ext (by simp) fun i _ _ => ?_
    simp
  show _ ++ _ = _
  rw [hfront, hrest]
  rfl

theorem length_ofKept (kept : Option (Workspace α)) (length : ℕ) :
    (Workspace.ofKept kept length).length = length := by
  unfold Workspace.ofKept
  cases kept with
  | none => rfl
  | some w =>
    show (if w.length = length then w else Workspace.ofLength length).length = length
    by_cases h : w.length = length
    · rw [if_pos h]
      exact h
    · rw [if_neg h]
      rfl

/-- Buffers as long as the full convolution have room for both arrays, and the kept entries are
among theirs. -/
theorem addCircular?_eq {w : Workspace α} (ha : 0 < a.size) (hv : 0 < v.size)
    (hroom : a.size + v.size - 1 ≤ w.length) :
    ∃ full second : Vector α w.length,
      ((Scalar.circular (padded 0.0 w.length a) (padded 0.0 w.length v)).size = w.length →
        full.toArray = Scalar.circular (padded 0.0 w.length a) (padded 0.0 w.length v)) ∧
      ∀ factor out, addCircular? w a v factor out =
        some (out.zipWith (fun y x => y + factor / Scalar.ofNat w.length * x)
          (full.toArray.extract ((v.size - 1) / 2) ((v.size - 1) / 2 + a.size)),
          ⟨w.length, full, second⟩) := by
  obtain ⟨first, hfirst, hfirstEq⟩ := load?_eq w.first (show a.size ≤ w.length by omega)
  obtain ⟨second, hsecond, hsecondEq⟩ := load?_eq w.second (show v.size ≤ w.length by omega)
  refine ⟨overwrite first (Scalar.circular first.toArray second.toArray), second, ?_, ?_⟩
  · intro hsize
    rw [hfirstEq, hsecondEq]
    exact toArray_overwrite first hsize
  · intro factor out
    have hslice : (v.size - 1) / 2 + a.size ≤
        (overwrite first (Scalar.circular first.toArray second.toArray)).toArray.size := by
      rw [Vector.size_toArray]
      omega
    unfold addCircular?
    simp only [hfirst, hsecond, centre?_of_pos hv, bind, Option.bind, slice?_eq hslice]
    rfl

theorem load?_congr {length : ℕ} (buffer buffer' : Vector α length) (xs : Array α) :
    load? buffer xs = load? buffer' xs := by
  by_cases h : xs.size ≤ length
  · obtain ⟨loaded, hload, hloaded⟩ := load?_eq buffer h
    obtain ⟨loaded', hload', hloaded'⟩ := load?_eq buffer' h
    rw [hload, hload', Vector.toArray_inj.mp (hloaded.trans hloaded'.symm)]
  · unfold load?
    rw [dif_neg h, dif_neg h]

theorem addCircular?_congr {w w' : Workspace α} (h : w.length = w'.length) (factor : α)
    (out : Array α) : addCircular? w a v factor out = addCircular? w' a v factor out := by
  obtain ⟨length, first, second⟩ := w
  obtain ⟨_, first', second'⟩ := w'
  cases h
  unfold addCircular?
  rw [load?_congr first first', load?_congr second second']

/-! ## The choice between the two -/

variable {out : Array α}

theorem addConvolutionIn?_empty (kept : Option (Workspace α)) (ha : a.size = 0)
    (hout : out.size = a.size) (factor : α) :
    addConvolutionIn? kept a v factor out = some (out, kept) := by
  have hempty : a.isEmpty = true := Array.isEmpty_iff_size_eq_zero.mpr ha
  unfold addConvolutionIn?
  rw [if_neg (not_not.mpr hout), hempty]
  rfl

theorem addConvolutionIn?_short (kept : Option (Workspace α)) (ha : 0 < a.size) (hv : 0 < v.size)
    (hout : out.size = a.size) (hshort : min a.size v.size < circularLength) (factor : α) :
    addConvolutionIn? kept a v factor out = (addDirect? a v factor out).map (·, kept) := by
  unfold addConvolutionIn?
  rw [if_neg (not_not.mpr hout), if_neg (not_isEmpty_or ha hv), if_pos hshort]
  cases addDirect? a v factor out <;> rfl

theorem addConvolutionIn?_long (kept : Option (Workspace α)) (ha : 0 < a.size) (hv : 0 < v.size)
    (hout : out.size = a.size) (hlong : ¬ min a.size v.size < circularLength) (factor : α) :
    addConvolutionIn? kept a v factor out =
      (addCircular? (.ofKept kept (2 ^ level (a.size + v.size - 1))) a v factor out).map
        fun r => (r.1, some r.2) := by
  unfold addConvolutionIn?
  rw [if_neg (not_not.mpr hout), if_neg (not_isEmpty_or ha hv), if_neg hlong,
    difference?_of_le (by omega)]
  show (addCircular? _ a v factor out).bind _ = _
  cases addCircular? (.ofKept kept (2 ^ level (a.size + v.size - 1))) a v factor out <;> rfl

/-- In any arithmetic the convolution of arrays of one length adds multiples of entries that depend
on the arrays alone; the circular one divides the factor by a length first. -/
theorem addConvolution?_eq (hv : v.size = a.size) :
    ∃ (entries : Array α) (norm : α → α), entries.size = a.size ∧
      ((∀ factor, norm factor = factor) ∨ ∃ n, ∀ factor, norm factor = factor / Scalar.ofNat n) ∧
      ∀ factor out, out.size = a.size → addConvolution? a v factor out =
        some (out.zipWith (fun y x => y + norm factor * x) entries) := by
  unfold addConvolution?
  by_cases hempty : a.size = 0
  · refine ⟨#[], id, hempty.symm, .inl fun _ => rfl, fun factor out hout => ?_⟩
    rw [addConvolutionIn?_empty none hempty hout]
    simp [Array.eq_empty_of_size_eq_zero (hout.trans hempty)]
  have ha : 0 < a.size := Nat.pos_of_ne_zero hempty
  have hvpos : 0 < v.size := hv ▸ ha
  by_cases hshort : min a.size v.size < circularLength
  · refine ⟨Array.ofFn fun k : Fin a.size => fullEntry a v (k + (v.size - 1) / 2), id,
      Array.size_ofFn, .inl fun _ => rfl, fun factor out hout => ?_⟩
    rw [addConvolutionIn?_short none ha hvpos hout hshort, addDirect?_eq ha hvpos]
    refine congrArg some (Array.ext (by simp [hout]) fun k _ _ => ?_)
    simp
  · let w : Workspace α := .ofKept none (2 ^ level (a.size + v.size - 1))
    have hroom : a.size + v.size - 1 ≤ w.length := by
      rw [length_ofKept]
      exact le_two_pow_level (a.size + v.size - 1)
    obtain ⟨full, second, -, hadd⟩ := addCircular?_eq ha hvpos hroom
    refine ⟨full.toArray.extract ((v.size - 1) / 2) ((v.size - 1) / 2 + a.size),
      (· / Scalar.ofNat w.length), ?_, .inr ⟨w.length, fun _ => rfl⟩, fun factor out hout => ?_⟩
    · simp only [Array.size_extract, Vector.size_toArray]
      omega
    · rw [addConvolutionIn?_long none ha hvpos hout hshort, hadd]
      rfl

/-- What earlier calls have left has no part in the result, in any arithmetic. -/
theorem fst_addConvolutionIn? (kept : Option (Workspace α)) (factor : α) :
    (addConvolutionIn? kept a v factor out).map (·.1) = addConvolution? a v factor out := by
  unfold addConvolution? addConvolutionIn?
  by_cases hout : out.size ≠ a.size
  · rw [if_pos hout, if_pos hout]
  rw [if_neg hout, if_neg hout]
  by_cases hempty : (a.isEmpty || v.isEmpty) = true
  · rw [if_pos hempty, if_pos hempty]
    rfl
  rw [if_neg hempty, if_neg hempty]
  by_cases hshort : min a.size v.size < circularLength
  · rw [if_pos hshort, if_pos hshort]
    cases addDirect? a v factor out <;> rfl
  · rw [if_neg hshort, if_neg hshort]
    cases difference? (a.size + v.size) 1 with
    | none => rfl
    | some n =>
      have hlength : (Workspace.ofKept kept (2 ^ level n)).length =
          (Workspace.ofKept none (2 ^ level n) : Workspace α).length :=
        (length_ofKept kept _).trans (length_ofKept none _).symm
      show ((addCircular? (.ofKept kept (2 ^ level n)) a v factor out).bind _).map _ =
        ((addCircular? (.ofKept none (2 ^ level n)) a v factor out).bind _).map _
      rw [addCircular?_congr hlength]

end

/-! ## Real numbers -/

/-- The entry `k` of the linear convolution: the products of all entries whose places add up to
`k`. -/
noncomputable def linearEntry (a v : Array ℝ) (k : ℕ) : ℝ :=
  ∑ i ∈ range a.size, ∑ j ∈ range v.size,
    if i + j = k then a.getD i 0 * v.getD j 0 else 0

/-- The linear convolution is a sum over the places that meet. -/
theorem linearEntry_eq {a v : Array ℝ} (ha : 0 < a.size) (hv : 0 < v.size) (k : ℕ) :
    linearEntry a v k =
      ((meeting a.size v.size k).map fun i => a.getD i 0 * v.getD (k - i) 0).sum := by
  have hinner (i : ℕ) : (∑ j ∈ range v.size, if i + j = k then a.getD i 0 * v.getD j 0 else 0) =
      if i ≤ k ∧ k - i < v.size then a.getD i 0 * v.getD (k - i) 0 else 0 := by
    by_cases h : i ≤ k ∧ k - i < v.size
    · obtain ⟨hik, hlt⟩ := h
      rw [if_pos ⟨hik, hlt⟩, Finset.sum_eq_single (k - i)]
      · rw [if_pos (by omega)]
      · intro j _ hne
        exact if_neg (by omega)
      · intro hnotMem
        exact absurd (Finset.mem_range.mpr hlt) hnotMem
    · rw [if_neg h]
      refine Finset.sum_eq_zero fun j hj => if_neg ?_
      rw [Finset.mem_range] at hj
      omega
  unfold linearEntry
  rw [← List.sum_toFinset _ (nodup_meeting a.size v.size k),
    Finset.sum_congr rfl fun i _ => hinner i, ← Finset.sum_filter]
  refine Finset.sum_congr ?_ fun i _ => rfl
  ext i
  rw [Finset.mem_filter, Finset.mem_range, List.mem_toFinset, mem_meeting ha hv]

theorem getD_padded (xs : Array ℝ) (length i : ℕ) :
    (padded 0 length xs).getD i 0 = xs.getD i 0 := by
  unfold padded
  rw [Array.getD_eq_getD_getElem?, Array.getD_eq_getD_getElem?, Array.getElem?_append]
  by_cases h : i < xs.size
  · rw [if_pos h]
  · rw [if_neg h, Array.getElem?_eq_none (Nat.le_of_not_lt h), Array.getElem?_replicate]
    by_cases hrest : i - xs.size < length - xs.size
    · rw [if_pos hrest]
      rfl
    · rw [if_neg hrest]

/-- A sum goes on over a longer range if nothing is added there. -/
theorem sum_range_extend {n length : ℕ} (h : n ≤ length) {f g : ℕ → ℝ}
    (hfg : ∀ i < n, f i = g i) (hg : ∀ i, n ≤ i → g i = 0) :
    ∑ i ∈ range n, f i = ∑ i ∈ range length, g i := by
  rw [Finset.sum_congr rfl fun i hi => hfg i (Finset.mem_range.mp hi)]
  refine Finset.sum_subset (Finset.range_subset_range.mpr h) fun i _ hi => ?_
  rw [Finset.mem_range] at hi
  exact hg i (Nat.le_of_not_lt hi)

/-- With room for the full convolution no sum of two places goes around the circle. -/
theorem circularEntry_padded {a v : Array ℝ} (ha : 0 < a.size) (hv : 0 < v.size) {length : ℕ}
    (hroom : a.size + v.size - 1 ≤ length) (k : ℕ) :
    circularEntry (padded 0 length a) (padded 0 length v) k = linearEntry a v k := by
  unfold circularEntry linearEntry
  have hsizeA : (padded 0 length a).size = length := size_padded 0 (by omega)
  have hsizeV : (padded 0 length v).size = length := size_padded 0 (by omega)
  have houtA : ∀ i, a.size ≤ i → a.getD i 0 = 0 := fun i hi => by
    simp [Array.getD, Nat.not_lt.mpr hi]
  have houtV : ∀ j, v.size ≤ j → v.getD j 0 = 0 := fun j hj => by
    simp [Array.getD, Nat.not_lt.mpr hj]
  simp only [hsizeA, hsizeV, getD_padded]
  refine (sum_range_extend (by omega) (fun i hi => ?_) fun i hi => ?_).symm
  · refine sum_range_extend (by omega) (fun j hj => ?_) fun j hj => ?_
    · rw [Nat.mod_eq_of_lt (show i + j < length by omega)]
    · rw [houtV j hj, mul_zero, ite_self]
  · refine Finset.sum_eq_zero fun j _ => ?_
    rw [houtA i hi, zero_mul, ite_self]

section

variable {α : Type} [Scalar α] [Scalar.ExactReals α]

open Scalar (ExactReals)
open Scalar.ExactReals (real)

theorem getD_map_real (xs : Array ℝ) (i : ℕ) :
    (xs.map real : Array α).getD i 0.0 = real (xs.getD i 0) := by
  by_cases h : i < xs.size
  · simp [Array.getD, h]
  · simp [Array.getD, h, ExactReals.zero_eq]

theorem padded_map_real (length : ℕ) (xs : Array ℝ) :
    padded 0.0 length (xs.map real : Array α) = (padded 0 length xs).map real := by
  unfold padded
  rw [Array.map_append, Array.map_replicate, Array.size_map, ExactReals.zero_eq]

theorem fullEntry_map_real {a v : Array ℝ} (ha : 0 < a.size) (hv : 0 < v.size) (k : ℕ) :
    fullEntry (a.map real : Array α) (v.map real) k = real (linearEntry a v k) := by
  unfold fullEntry
  simp only [getD_map_real, ExactReals.real_mul, Array.size_map]
  rw [ExactReals.zero_eq, ExactReals.foldl_add, zero_add, linearEntry_eq ha hv]

/-- The centred linear convolution, a factor times, on top of an array. -/
noncomputable def withConvolution (a v : Array ℝ) (factor : ℝ) (out : Array ℝ) : Array ℝ :=
  out.mapIdx fun k y => y + factor * linearEntry a v (k + (v.size - 1) / 2)

theorem addDirect?_map_real {a v : Array ℝ} (ha : 0 < a.size) (hv : 0 < v.size) (factor : ℝ)
    (out : Array ℝ) :
    addDirect? (a.map real : Array α) (v.map real) (real factor) (out.map real) =
      some ((withConvolution a v factor out).map real) := by
  rw [addDirect?_eq (by simpa using ha) (by simpa using hv)]
  refine congrArg some (Array.ext (by simp [withConvolution]) fun k _ _ => ?_)
  simp [withConvolution, fullEntry_map_real ha hv, ExactReals.real_mul, ExactReals.real_add]

/-- The circular convolution of padded arrays is the linear convolution, times its length. -/
theorem circular_padded {a v : Array ℝ} (ha : 0 < a.size) (hv : 0 < v.size) {length level : ℕ}
    (hlevel : length = 2 ^ level) (hroom : a.size + v.size - 1 ≤ length) :
    Scalar.circular (padded 0.0 length (a.map real : Array α)) (padded 0.0 length (v.map real)) =
      Array.ofFn fun k : Fin length => real (length * linearEntry a v k) := by
  have hsizeA : (padded 0 length a).size = length := size_padded 0 (by omega)
  have hsizeV : (padded 0 length v).size = length := size_padded 0 (by omega)
  rw [padded_map_real, padded_map_real,
    ExactReals.circular_eq (hsizeA.trans hlevel) (hsizeV.trans hlevel)]
  refine Array.ext (by simp [hsizeA]) fun k _ _ => ?_
  simp [hsizeA, circularEntry_padded ha hv hroom]

theorem addCircular?_map_real {a v : Array ℝ} (ha : 0 < a.size) (hv : 0 < v.size)
    {w : Workspace α} {level : ℕ} (hlevel : w.length = 2 ^ level)
    (hroom : a.size + v.size - 1 ≤ w.length) (factor : ℝ) {out : Array ℝ}
    (hout : out.size = a.size) :
    ∃ w', addCircular? w (a.map real) (v.map real) (real factor) (out.map real) =
      some ((withConvolution a v factor out).map real, w') := by
  obtain ⟨full, second, hfull, hadd⟩ := addCircular?_eq (w := w) (a := a.map real)
    (v := v.map real) (by simpa using ha) (by simpa using hv) (by simpa using hroom)
  rw [circular_padded ha hv hlevel hroom] at hfull
  have hfull := hfull (by simp)
  have hpos : (w.length : ℝ) ≠ 0 := by
    rw [hlevel]
    positivity
  refine ⟨⟨w.length, full, second⟩, ?_⟩
  rw [hadd, hfull]
  refine congrArg (fun xs => some (xs, _)) (Array.ext ?_ fun k _ _ => ?_)
  · simp [withConvolution]
    omega
  · have hscale (x : ℝ) : factor / w.length * (w.length * x) = factor * x := by
      field_simp
    simp [withConvolution, ExactReals.ofNat_eq, ExactReals.real_div factor hpos,
      ExactReals.real_mul, ExactReals.real_add, hscale, Nat.add_comm]

/-- In exact arithmetic both ways add the centred linear convolution to an array, whatever buffers
an earlier call has left; no index is below zero and no place outside an array. -/
theorem trimmed_convolution (kept : Option (Workspace α)) (a v : Array ℝ) (factor : ℝ)
    (out : Array ℝ) (ha : 0 < a.size) (hv : 0 < v.size) (hout : out.size = a.size) :
    ∃ kept', addConvolutionIn? kept (a.map real) (v.map real) (real factor) (out.map real) =
      some ((out.mapIdx fun k y => y + factor *
        ∑ i ∈ range a.size, ∑ j ∈ range v.size,
          if i + j = k + (v.size - 1) / 2 then a.getD i 0 * v.getD j 0 else 0).map real,
        kept') := by
  have ha' : 0 < (a.map real : Array α).size := by simpa using ha
  have hv' : 0 < (v.map real : Array α).size := by simpa using hv
  have hout' : (out.map real : Array α).size = (a.map real : Array α).size := by simpa using hout
  by_cases hshort : min (a.map real : Array α).size (v.map real : Array α).size < circularLength
  · refine ⟨kept, ?_⟩
    rw [addConvolutionIn?_short kept ha' hv' hout' hshort, addDirect?_map_real ha hv]
    rfl
  · have hlength := length_ofKept kept (2 ^ level (a.size + v.size - 1))
    have hroom := le_two_pow_level (a.size + v.size - 1)
    obtain ⟨w, hw⟩ := addCircular?_map_real ha hv hlength (by omega) factor hout
    refine ⟨some w, ?_⟩
    rw [addConvolutionIn?_long kept ha' hv' hout' hshort, Array.size_map, Array.size_map, hw]
    rfl

end

/-- Arrays of 64 entries go through the buffers, here ones of the right length that hold no
numbers. -/
theorem trimmed_convolution_stale :
    ∃ kept', addConvolutionIn?
        (some ⟨128, Vector.replicate 128 Exact.nan, Vector.replicate 128 Exact.nan⟩)
        ((Array.replicate 64 1).map Exact.real) ((Array.replicate 64 2).map Exact.real)
        (Exact.real 3) ((Array.replicate 64 5).map Exact.real) =
      some (((Array.replicate 64 5).mapIdx fun k y => y + 3 *
        ∑ i ∈ range 64, ∑ j ∈ range 64, if i + j = k + 31 then
          (Array.replicate 64 (1 : ℝ)).getD i 0 * (Array.replicate 64 2).getD j 0
        else 0).map Exact.real, kept') := by
  have hsize (x : ℝ) : (Array.replicate 64 x).size = 64 := Array.size_replicate
  have h := trimmed_convolution
    (some ⟨128, Vector.replicate 128 Exact.nan, Vector.replicate 128 Exact.nan⟩)
    (Array.replicate 64 1) (Array.replicate 64 2) 3 (Array.replicate 64 5)
    (by simp) (by simp) (by simp)
  simp only [hsize] at h
  exact h

end PulseFit.Rate
