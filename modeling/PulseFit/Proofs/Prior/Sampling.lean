import PulseFit.Proofs.Prior.Chains

/-!
# Proofs.Prior.Sampling — a prior that was built never runs out of attempts

All members of a chain are uniform in the window, so every chain is sorted after the draw.  The
sorted values lie in the window still, hence neighbours neither decrease nor grow by more than its
width, and the first attempt succeeds (`drawValues_eq`).  This is about exact numbers: a rounded
difference of two numbers in the window need not be below the rounded width.
-/

namespace PulseFit

open Scalar (isNaN isFinite)

namespace Prior

/-! ## One attempt -/

section

variable {α : Type} [Scalar α]

/-- The values of all entries before sorting. -/
def drawn (entries : List (Entry α)) (draws : Draws α) : List α :=
  entries.mapIdx fun i e => e.marginal.draw (draws.value (draws.used + i))

theorem drawEntries_eq (entries : List (Entry α)) (draws : Draws α) :
    drawEntries entries draws =
      (drawn entries draws, { draws with used := draws.used + entries.length }) := by
  induction entries generalizing draws with
  | nil => rfl
  | cons e entries ih =>
    have hrest : drawn (e :: entries) draws =
        e.marginal.draw (draws.value draws.used) :: drawn entries draws.next.2 := by
      unfold drawn
      rw [List.mapIdx_cons]
      refine congrArg (_ :: ·) (List.mapIdx_eq_mapIdx_iff.mpr fun i _ => ?_)
      show _ = entries[i].marginal.draw (draws.value (draws.used + 1 + i))
      rw [Nat.add_right_comm, Nat.add_assoc]
    show (_ :: (drawEntries entries draws.next.2).1, (drawEntries entries draws.next.2).2) = _
    rw [ih, hrest, List.length_cons, Nat.add_comm entries.length, ← Nat.add_assoc]
    rfl

theorem getElem?_drawn (entries : List (Entry α)) (draws : Draws α) (i : Nat) :
    (drawn entries draws)[i]? =
      entries[i]?.map fun e => e.marginal.draw (draws.value (draws.used + i)) :=
  List.getElem?_mapIdx

theorem length_drawn (entries : List (Entry α)) (draws : Draws α) :
    (drawn entries draws).length = entries.length :=
  List.length_mapIdx

/-- Sorted values that keep the order need one attempt. -/
theorem drawValues_of_ordered {r : Prior α} {draws : Draws α}
    (hexchangeable : ∀ c ∈ r.chains, exchangeable r.entries c = true)
    (hordered : r.ordered (sortChains r.chains (drawn r.entries draws)) = true) :
    r.drawValues draws =
      (.ok (sortChains r.chains (drawn r.entries draws)),
        { draws with used := draws.used + r.size }) := by
  have hsortable : r.chains.filter (exchangeable r.entries) = r.chains :=
    List.filter_eq_self.mpr hexchangeable
  obtain ⟨attempts, hattempts⟩ : ∃ n, r.attempts = n + 1 :=
    ⟨r.attempts - 1, by have := r.attempts_pos; omega⟩
  unfold drawValues
  rw [hsortable, hattempts, attempt, drawEntries_eq]
  simp only [hordered, if_true]
  rfl

/-! ## Orders -/

/-- The value of the first entry of a key. -/
def firstValue (r : Prior α) (values : List α) (k : Key) : α :=
  Chain.valueAt values ((r.entries.map (·.key)).idxOf k)

/-- The times of pulses do not decrease with the pulse numbers. -/
def Ascending (pulses : List Nat) (time : Nat → α) : Prop :=
  ∀ i ∈ pulses, ∀ j ∈ pulses, i < j → time i ≤ time j

/-- Of two numbers in an ascending list the lower one comes first. -/
theorem exists_getElem_of_lt {xs : List Nat} (hxs : xs.Pairwise (· < ·)) {i j : Nat} (hi : i ∈ xs)
    (hj : j ∈ xs) (hij : i < j) :
    ∃ a b, ∃ (ha : a < xs.length) (hb : b < xs.length), a < b ∧ xs[a] = i ∧ xs[b] = j := by
  obtain ⟨a, ha, rfl⟩ := List.getElem_of_mem hi
  obtain ⟨b, hb, rfl⟩ := List.getElem_of_mem hj
  refine ⟨a, b, ha, hb, ?_, rfl, rfl⟩
  rcases Nat.lt_trichotomy a b with hab | rfl | hba
  · exact hab
  · omega
  · have hlt := List.pairwise_iff_getElem.mp hxs b a hb ha hba
    omega

end

/-! ## The window -/

section

variable {m : Model} {channels : List Channel} {b : Bounds Exact} {r : Prior Exact}
  {ch : Channel} {q : ShapeQuantity} {lo hi : ℝ}

/-- A number in the window. -/
def InWindow (lo hi : ℝ) (x : Exact) : Prop := ∃ t : ℝ, lo ≤ t ∧ t ≤ hi ∧ x = .real t

/-- Accepted bounds have a window of real numbers. -/
theorem exists_window (hb : b.validate = .ok ()) :
    ∃ lo hi : ℝ, lo < hi ∧ b.window = ⟨.real lo, .real hi⟩ := by
  have hstart : (.shape .start, b.window) ∈ b.signed := List.mem_cons_self
  have hproper := Interval.admissible_false_iff.mp ((Bounds.validate_eq_ok_iff.mp hb).1 _ hstart)
  obtain ⟨hlo, hhi, hlt⟩ := Interval.proper_iff.mp hproper
  obtain ⟨lo, hlo⟩ := Exact.exists_real_of_isFinite hlo
  obtain ⟨hi, hhi⟩ := Exact.exists_real_of_isFinite hhi
  rw [hlo, hhi] at hlt
  refine ⟨lo, hi, hlt, ?_⟩
  rw [← hlo, ← hhi]

theorem beq_self_of_isNaN {x : Exact} (h : isNaN x = false) : (x == x) = true := by
  have hle : x.le x := by
    cases x with
    | real x => exact le_refl x
    | posInf => exact trivial
    | negInf => exact trivial
    | nan => cases h
  classical exact decide_eq_true ⟨hle, hle⟩

/-- A uniform distribution has parameters that are numbers, so it is the same as itself. -/
theorem same_self_of_uniform? {x y : Exact} {d : Marginal Exact}
    (h : Marginal.uniform? x y = some d) : d.same d = true := by
  obtain ⟨hx, hy, hd, rfl⟩ := Marginal.uniform?_eq_some h
  simp [Marginal.same, beq_self_of_isNaN hx, beq_self_of_isNaN hy, beq_self_of_isNaN hd]

theorem draw_uniform (lo hi t : ℝ) (logDensity : Exact) :
    (Marginal.uniform (.real lo) (.real hi) logDensity).draw (.real t) =
      .real (lo + t * (hi - lo)) := by
  show Exact.real lo + .real t * (.real hi - .real lo) = _
  rw [Exact.real_sub_real]
  rfl

/-- A fraction of the way from one end to the other is between the ends. -/
theorem inWindow_fraction (hle : lo ≤ hi) {u : Exact} (hu : 0.0 ≤ u) (hu' : u < 1.0) :
    InWindow lo hi (.real lo + u * (.real hi - .real lo)) := by
  rw [Exact.zero_eq] at hu
  rw [Exact.one_eq] at hu'
  cases u with
  | real t =>
    have hnonneg : 0 ≤ t := hu
    have hle' : t ≤ 1 := le_of_lt hu'
    have hwidth : 0 ≤ hi - lo := by linarith
    refine ⟨lo + t * (hi - lo), ?_, ?_, ?_⟩
    · nlinarith
    · nlinarith
    · rw [Exact.real_sub_real]
      rfl
  | posInf => exact hu'.elim
  | negInf => exact hu.elim
  | nan => exact hu.elim

theorem draw_inWindow {d : Marginal Exact} (hlt : lo < hi)
    (hd : Marginal.uniform? (.real lo) (.real hi) = some d) {u : Exact} (hu : 0.0 ≤ u)
    (hu' : u < 1.0) : InWindow lo hi (d.draw u) := by
  obtain ⟨-, -, -, rfl⟩ := Marginal.uniform?_eq_some hd
  exact inWindow_fraction hlt.le hu hu'

/-- All members of a chain have one distribution. -/
theorem exchangeable_of_build? (hr : build? m channels b = some (.ok r)) {c : Chain Exact}
    (hc : c ∈ r.chains) : exchangeable r.entries c = true := by
  have huniform : ∀ e ∈ c.members.filterMap (r.entries[·]?),
      Marginal.uniform? b.window.lo b.window.hi = some e.marginal := by
    intro e he
    obtain ⟨i, hi, hentry⟩ := List.mem_filterMap.mp he
    obtain ⟨e', he', hmarginal⟩ := uniform_of_isTime hr (isTime_of_mem_members hr hc hi)
    obtain rfl := Option.some.inj (he'.symm.trans hentry)
    exact hmarginal
  unfold exchangeable
  split
  · rfl
  · next e rest hmembers =>
    rw [hmembers] at huniform
    have hd := huniform e List.mem_cons_self
    rw [List.all_eq_true]
    intro e' he'
    have hd' := huniform e' (List.mem_cons_of_mem e he')
    rw [← Option.some.inj (hd.symm.trans hd')]
    exact same_self_of_uniform? hd

theorem drawn_inWindow (hr : build? m channels b = some (.ok r)) (hlt : lo < hi)
    (hwindow : b.window = ⟨.real lo, .real hi⟩) {draws : Draws Exact}
    (hdraws : ∀ i, 0.0 ≤ draws.value i ∧ draws.value i < 1.0) {i : Nat} (htime : r.IsTime i) :
    InWindow lo hi (Chain.valueAt (drawn r.entries draws) i) := by
  obtain ⟨e, he, hmarginal⟩ := uniform_of_isTime hr htime
  obtain ⟨hu, hu'⟩ := hdraws (draws.used + i)
  rw [hwindow] at hmarginal
  rw [Chain.valueAt, List.getD_eq_getElem?_getD, getElem?_drawn, he]
  exact draw_inWindow hlt hmarginal hu hu'

/-- Numbers in the window are no further apart than the window is wide. -/
theorem sub_le_of_inWindow {x y : Exact} (hx : InWindow lo hi x) (hy : InWindow lo hi y) :
    y - x ≤ .real hi - .real lo := by
  obtain ⟨s, hlo, -, rfl⟩ := hx
  obtain ⟨t, -, hhi, rfl⟩ := hy
  rw [Exact.real_sub_real, Exact.real_sub_real, Exact.real_le_real]
  linarith

/-- A step between numbers in the window is allowed exactly if it does not go down. -/
theorem step_iff_of_inWindow {x y : Exact} (hx : InWindow lo hi x) (hy : InWindow lo hi y) :
    0.0 ≤ y - x ∧ y - x ≤ .real hi - .real lo ↔ x ≤ y := by
  rw [and_iff_left (sub_le_of_inWindow hx hy)]
  obtain ⟨s, -, -, rfl⟩ := hx
  obtain ⟨t, -, -, rfl⟩ := hy
  rw [Exact.zero_eq, Exact.real_sub_real, Exact.real_le_real, Exact.real_le_real, sub_nonneg]

theorem le_of_inWindow {x y : Exact} (hx : InWindow lo hi x) (hy : InWindow lo hi y)
    (hxy : Scalar.totalLe x y = true) : x ≤ y := by
  obtain ⟨s, -, -, rfl⟩ := hx
  obtain ⟨t, -, -, rfl⟩ := hy
  exact Scalar.LawfulTotal.le_of_totalLe rfl rfl hxy

/-- Values in the window keep the order of all chains exactly if no step goes down. -/
theorem ordered_iff_of_inWindow (hr : build? m channels b = some (.ok r))
    (hwindow : b.window = ⟨.real lo, .real hi⟩) {values : List Exact}
    (hvalues : ∀ i, r.IsTime i → InWindow lo hi (Chain.valueAt values i)) :
    r.ordered values = true ↔ ∀ c ∈ r.chains, ∀ i j, (i, j) ∈ Chain.pairs c.members →
      Chain.valueAt values i ≤ Chain.valueAt values j := by
  rw [ordered, List.all_eq_true]
  refine forall₂_congr fun c hc => ?_
  rw [Chain.holds_iff]
  refine forall₂_congr fun i j => forall_congr' fun hpair => ?_
  obtain ⟨k, hfirst, hsecond⟩ := Chain.mem_pairs.mp hpair
  have hi' := hvalues i (isTime_of_mem_members hr hc (List.mem_of_getElem? hfirst))
  have hj' := hvalues j (isTime_of_mem_members hr hc (List.mem_of_getElem? hsecond))
  have hlimit : c.limit = .real hi - .real lo := by
    obtain ⟨ch, -, q, -, hlimit⟩ := chain_of_build? hr hc
    rw [hlimit, Bounds.width, hwindow]
  rw [hlimit, step_iff_of_inWindow hi' hj']

/-- Values in the window that ascend along all chains keep their order. -/
theorem ordered_of_ascends (hr : build? m channels b = some (.ok r))
    (hwindow : b.window = ⟨.real lo, .real hi⟩) {values : List Exact}
    (hvalues : ∀ i, r.IsTime i → InWindow lo hi (Chain.valueAt values i))
    (hascends : ∀ c ∈ r.chains, c.Ascends values) : r.ordered values = true := by
  rw [ordered_iff_of_inWindow hr hwindow hvalues]
  intro c hc i j hpair
  obtain ⟨k, hfirst, hsecond⟩ := Chain.mem_pairs.mp hpair
  have hi' := hvalues i (isTime_of_mem_members hr hc (List.mem_of_getElem? hfirst))
  have hj' := hvalues j (isTime_of_mem_members hr hc (List.mem_of_getElem? hsecond))
  exact le_of_inWindow hi' hj' (Chain.rel_of_mem_pairs (List.pairwise_map.mp (hascends c hc)) hpair)

/-! ## Draws -/

theorem sorted_inWindow (hr : build? m channels b = some (.ok r)) (hlt : lo < hi)
    (hwindow : b.window = ⟨.real lo, .real hi⟩) {draws : Draws Exact}
    (hdraws : ∀ i, 0.0 ≤ draws.value i ∧ draws.value i < 1.0) {i : Nat} (htime : r.IsTime i) :
    InWindow lo hi (Chain.valueAt (sortChains r.chains (drawn r.entries draws)) i) := by
  have hsortable : Sortable (drawn r.entries draws).length r.chains := by
    rw [length_drawn]
    exact sortable_of_build? hr
  exact forall_sortChains (P := fun i x => r.IsTime i → InWindow lo hi x) hsortable
    (fun c hc i hi _ _ _ h _ => h (isTime_of_mem_members hr hc hi))
    (fun i => drawn_inWindow hr hlt hwindow hdraws) i htime

theorem ascends_sorted (hr : build? m channels b = some (.ok r)) (draws : Draws Exact)
    {c : Chain Exact} (hc : c ∈ r.chains) :
    c.Ascends (sortChains r.chains (drawn r.entries draws)) := by
  have hsortable : Sortable (drawn r.entries draws).length r.chains := by
    rw [length_drawn]
    exact sortable_of_build? hr
  exact ascends_sortChains hsortable hc

/-- The first attempt succeeds, and its values are the sorted ones. -/
theorem drawValues_eq (hr : build? m channels b = some (.ok r)) (hb : b.validate = .ok ())
    {draws : Draws Exact} (hdraws : ∀ i, 0.0 ≤ draws.value i ∧ draws.value i < 1.0)
    {attempts : Nat} (hattempts : 0 < attempts) :
    drawValues { r with attempts, attempts_pos := hattempts } draws =
      (.ok (sortChains r.chains (drawn r.entries draws)),
        { draws with used := draws.used + r.size }) := by
  obtain ⟨lo, hi, hlt, hwindow⟩ := exists_window hb
  have hordered := ordered_of_ascends hr hwindow
    (fun i htime => sorted_inWindow hr hlt hwindow hdraws htime)
    (fun c hc => ascends_sorted hr draws hc)
  exact drawValues_of_ordered (r := { r with attempts, attempts_pos := hattempts })
    (fun c hc => exchangeable_of_build? hr hc) hordered

/-- Any number of draws succeed. -/
theorem exists_drawMany (hr : build? m channels b = some (.ok r)) (hb : b.validate = .ok ())
    {draws : Draws Exact} (hdraws : ∀ i, 0.0 ≤ draws.value i ∧ draws.value i < 1.0) (n : Nat) :
    ∃ values, (r.drawMany n draws).1 = .ok values := by
  induction n generalizing draws with
  | zero => exact ⟨[], rfl⟩
  | succ n ih =>
    have hfirst := drawValues_eq hr hb hdraws r.attempts_pos
    obtain ⟨rest, hrest⟩ := @ih { draws with used := draws.used + r.size } hdraws
    refine ⟨sortChains r.chains (drawn r.entries draws) :: rest, ?_⟩
    rw [drawMany, hfirst]
    dsimp only
    rw [hrest]
    rfl

/-- The first times of a channel ascend with the pulse numbers. -/
theorem ascending_sorted (hr : build? m channels b = some (.ok r)) (hb : b.validate = .ok ())
    {draws : Draws Exact} (hdraws : ∀ i, 0.0 ≤ draws.value i ∧ draws.value i < 1.0)
    (hch : ch ∈ channels) (q : ShapeQuantity) :
    Ascending (m.orderedPulses q) fun i =>
      r.firstValue (sortChains r.chains (drawn r.entries draws)) (.shape q i ch) := by
  obtain ⟨lo, hi, hlt, hwindow⟩ := exists_window hb
  let values := sortChains r.chains (drawn r.entries draws)
  have hfirst (i : Nat) : r.firstValue values (.shape q i ch) =
      Chain.valueAt values ((modelKeys m channels).idxOf (.shape q i ch)) := by
    rw [← keys_of_build? hr]
    rfl
  have hinWindow : ∀ i ∈ m.orderedPulses q,
      InWindow lo hi (r.firstValue values (.shape q i ch)) := by
    intro i hpulse
    rw [hfirst]
    exact sorted_inWindow hr hlt hwindow hdraws
      (isTime_of_mem_orderedPlaces hr hch (List.mem_map_of_mem hpulse))
  intro i hi j hj hij
  refine le_of_inWindow (hinWindow i hi) (hinWindow j hj) ?_
  -- two pulses make a chain
  obtain ⟨k, l, hk, hl, hkl, rfl, rfl⟩ :=
    exists_getElem_of_lt (m.pairwise_orderedPulses q) hi hj hij
  have hlength : 1 < (m.orderedPulses q).length := by omega
  obtain ⟨c, hc, hmembers⟩ := exists_chain_of_build? hr hch hlength
  have hascends := ascends_sorted hr draws hc
  rw [Chain.Ascends, hmembers, orderedPlaces, List.map_map] at hascends
  show Scalar.totalLe (r.firstValue values _) (r.firstValue values _) = true
  rw [hfirst, hfirst]
  exact List.pairwise_iff_getElem.mp (List.pairwise_map.mp hascends) k l hk hl hkl

/-- A start through which no chain runs stays as it was drawn. -/
theorem getElem?_sorted_of_notMem (hr : build? m channels b = some (.ok r))
    (hwindow : b.window = ⟨.real lo, .real hi⟩) {i pulse : Nat}
    (hkey : (modelKeys m channels)[i]? = some (.shape .start pulse ch))
    (hplace : ∀ ch' ∈ channels, ∀ q, i ∉ orderedPlaces m channels ch' q) (draws : Draws Exact)
    {t : ℝ} (ht : draws.value (draws.used + i) = .real t) :
    (sortChains r.chains (drawn r.entries draws))[i]? = some (.real (lo + t * (hi - lo))) := by
  have hnotMem : ∀ c ∈ r.chains, i ∉ c.members := by
    intro c hc hi
    obtain ⟨ch', hch', q, hmembers, -⟩ := chain_of_build? hr hc
    exact hplace ch' hch' q (hmembers ▸ hi)
  rw [← keys_of_build? hr, List.getElem?_map] at hkey
  obtain ⟨e, he, hkey⟩ := Option.map_eq_some_iff.mp hkey
  obtain ⟨e', he', hmarginal⟩ := uniform_of_isTime hr ⟨e, he, .inl (congrArg Key.quantity hkey)⟩
  obtain rfl := Option.some.inj (he'.symm.trans he)
  rw [hwindow] at hmarginal
  obtain ⟨-, -, -, hd⟩ := Marginal.uniform?_eq_some hmarginal
  rw [getElem?_sortChains_of_notMem hnotMem, getElem?_drawn, he', Option.map_some, ht, hd]
  exact congrArg some (draw_uniform lo hi t _)

/-- Drawing from a prior that was built succeeds at the first attempt with one random number for
each entry, and no two times are further apart than the window is wide.  In every channel the starts
do not decrease with the pulse number, nor do the residuals along the pulses that have one.  The
order is that of the first entries of the keys: a channel that is given twice has entries twice, and
the chains run through the first ones. -/
theorem drawValues_ascending (m : Model) (channels : List Channel) {b : Bounds Exact}
    (hb : b.validate = .ok ()) {attempts : Nat} (hattempts : 0 < attempts) (draws : Draws Exact)
    (hdraws : ∀ i, 0.0 ≤ draws.value i ∧ draws.value i < 1.0) :
    ∃ r r' values, build? m channels b = some (.ok r) ∧ r.withAttempts? attempts = some r' ∧
      r'.drawValues draws = (.ok values, { draws with used := draws.used + r'.size }) ∧
      values.length = r'.size ∧
      (∀ i j, r'.IsTime i → r'.IsTime j →
        Chain.valueAt values j - Chain.valueAt values i ≤ b.width) ∧
      ∀ ch ∈ channels,
        Ascending (List.range' 1 m.size) (fun i => r'.firstValue values (.shape .start i ch)) ∧
        Ascending m.residualChain fun i => r'.firstValue values (.shape .residualBegin i ch) := by
  obtain ⟨r, hr⟩ := exists_build? hb m channels
  obtain ⟨lo, hi, hlt, hwindow⟩ := exists_window hb
  refine ⟨r, { r with attempts, attempts_pos := hattempts },
    sortChains r.chains (drawn r.entries draws), hr, dif_pos hattempts,
    drawValues_eq hr hb hdraws hattempts, ?_, fun i j hfirst hsecond => ?_, fun ch hch => ⟨?_, ?_⟩⟩
  · exact (length_sortChains _ _).trans (length_drawn _ _)
  · rw [Bounds.width, hwindow]
    exact sub_le_of_inWindow (sorted_inWindow hr hlt hwindow hdraws hfirst)
      (sorted_inWindow hr hlt hwindow hdraws hsecond)
  · exact ascending_sorted hr hb hdraws hch .start
  · exact ascending_sorted hr hb hdraws hch .residualBegin

end

/-- A single attempt, always in the middle, for channels of which one is given twice. -/
theorem drawValues_ascending_FsGXb :
    ∃ r r' values,
      build? ⟨false, [⟨.fred, some .sineGaussian⟩, ⟨.gaussian, none⟩, ⟨.fredx, some .bessel⟩], none⟩
        [.a, .b, .a] tenBounds = some (.ok r) ∧
      r.withAttempts? 1 = some r' ∧
      r'.drawValues ⟨fun _ => .real 0.5, 0⟩ = (.ok values, ⟨fun _ => .real 0.5, 0 + r'.size⟩) ∧
      Ascending [1, 2, 3] (fun i => r'.firstValue values (.shape .start i .b)) ∧
      Ascending [1, 3] fun i => r'.firstValue values (.shape .residualBegin i .a) := by
  have hdraws (_ : Nat) : 0.0 ≤ Exact.real 0.5 ∧ Exact.real 0.5 < 1.0 := by
    rw [Exact.zero_eq, Exact.one_eq, Exact.real_le_real, Exact.real_lt_real]
    norm_num
  obtain ⟨r, r', values, hr, hattempts, hdraw, -, -, horder⟩ := drawValues_ascending
    ⟨false, [⟨.fred, some .sineGaussian⟩, ⟨.gaussian, none⟩, ⟨.fredx, some .bessel⟩], none⟩
    [.a, .b, .a] validate_tenBounds Nat.one_pos ⟨fun _ => .real 0.5, 0⟩ hdraws
  exact ⟨r, r', values, hr, hattempts, hdraw, (horder .b (by decide)).1, (horder .a (by decide)).2⟩

/-- Late at one place, early at all others. -/
noncomputable def lateAt (place : Nat) : Draws Exact where
  value i := if i = place then .real 0.9 else .real 0.1

theorem lateAt_value (place i : Nat) :
    0.0 ≤ (lateAt place).value i ∧ (lateAt place).value i < 1.0 := by
  rw [Exact.zero_eq, Exact.one_eq]
  unfold lateAt
  by_cases h : i = place
  · simp only [h, if_true, Exact.real_le_real, Exact.real_lt_real]
    norm_num
  · simp only [h, if_false, Exact.real_le_real, Exact.real_lt_real]
    norm_num

/-- A late ninth number, all others early. -/
noncomputable def lateNinth : Draws Exact := lateAt 8

theorem lateNinth_value (i : Nat) : 0.0 ≤ lateNinth.value i ∧ lateNinth.value i < 1.0 :=
  lateAt_value 8 i

/-- Of a channel that is given twice, the second starts stay as they were drawn, here descending. -/
theorem second_starts_descend :
    ∃ r values draws,
      build? ⟨false, [⟨.gaussian, none⟩, ⟨.gaussian, none⟩], none⟩ [.a, .a]
        tenBounds = some (.ok r) ∧
      (∀ i, 0.0 ≤ lateNinth.value i ∧ lateNinth.value i < 1.0) ∧
      r.drawValues lateNinth = (.ok values, draws) ∧
      r.names[8]? = some "start_1_a" ∧ r.names[9]? = some "start_2_a" ∧
      ∃ x y, values[8]? = some x ∧ values[9]? = some y ∧ y < x := by
  obtain ⟨r, hr⟩ := exists_build? validate_tenBounds
    ⟨false, [⟨.gaussian, none⟩, ⟨.gaussian, none⟩], none⟩ [.a, .a]
  have hkeys : (modelKeys ⟨false, [⟨.gaussian, none⟩, ⟨.gaussian, none⟩], none⟩ [.a, .a])[8]? =
      some (.shape .start 1 .a) ∧
      (modelKeys ⟨false, [⟨.gaussian, none⟩, ⟨.gaussian, none⟩], none⟩ [.a, .a])[9]? =
      some (.shape .start 2 .a) := by decide
  have hplace (i : Nat) (hi : i = 8 ∨ i = 9) (ch : Channel) (_ : ch ∈ [Channel.a, .a])
      (q : ShapeQuantity) :
      i ∉ orderedPlaces ⟨false, [⟨.gaussian, none⟩, ⟨.gaussian, none⟩], none⟩ [.a, .a] ch q := by
    rcases hi with rfl | rfl <;> cases ch <;> cases q <;> decide
  have hfirst := getElem?_sorted_of_notMem hr rfl hkeys.1 (hplace 8 (.inl rfl)) lateNinth rfl
  have hsecond := getElem?_sorted_of_notMem hr rfl hkeys.2 (hplace 9 (.inr rfl)) lateNinth rfl
  refine ⟨r, _, _, hr, lateNinth_value,
    drawValues_eq hr validate_tenBounds lateNinth_value r.attempts_pos, ?_, ?_, _, _, hfirst,
    hsecond, ?_⟩
  · rw [names_of_build? hr]
    decide
  · rw [names_of_build? hr]
    decide
  · rw [Exact.real_lt_real]
    norm_num

end Prior

end PulseFit
