import PulseFit.Proofs.Coverage
import PulseFit.Proofs.Prior.Attempts

/-!
# Proofs.Prior.Drawing — assignments that are drawn keep the order

A draw is checked as a list of values, by place, and given out as an assignment, by name.  As long
as no parameter has two entries, reading the assignment gives the list back (`values_assign`), so
what was checked still holds.  A channel that is given twice has entries twice: the check is of the
first ones, the assignment holds the last ones, and they need not keep the order
(`exists_draw_unordered`).
-/

namespace PulseFit.Prior

variable {α : Type} {m : Model} {channels : List Channel} {r r' r'' : Prior α} {p : Assignment α}
  {values : List α}

/-! ## Reading what was assigned -/

/-- The value of the last entry of a key holds. -/
theorem getElem?_assign {e : Entry α} {x : α} {i : Nat} (he : r.entries[i]? = some e)
    (hx : values[i]? = some x)
    (hlast : ∀ j e', i < j → r.entries[j]? = some e' → e'.key ≠ e.key) :
    (r.assign values)[e.name]? = some x := by
  have hpair : (r.names.zip values)[i]? = some (e.name, x) := by
    rw [List.getElem?_zip_eq_some, names, List.getElem?_map, he]
    exact ⟨rfl, hx⟩
  refine Assignment.getElem?_ofPairs_of_last hpair fun j y hij hy => ?_
  rw [List.getElem?_zip_eq_some, names, List.getElem?_map] at hy
  obtain ⟨e', he', hname⟩ := Option.map_eq_some_iff.mp hy.1
  exact hlast j e' hij he' (Key.text_injective hname)

/-- Where no parameter has two entries, the values that were assigned are read back. -/
theorem values_assign (hkeys : (r.entries.map (·.key)).Nodup) (hlength : values.length = r.size) :
    r.values (r.assign values) = .ok values := by
  refine mapM_eq_ok hlength.symm fun i e x he hx => ?_
  have hlast : ∀ j e', i < j → r.entries[j]? = some e' → e'.key ≠ e.key := by
    intro j e' hij he' hkey
    have hi : (r.entries.map (·.key))[i]? = some e.key := by rw [List.getElem?_map, he]; rfl
    have hj : (r.entries.map (·.key))[j]? = some e.key := by
      rw [List.getElem?_map, he', ← hkey]
      rfl
    obtain ⟨hlt, -⟩ := List.getElem?_eq_some_iff.mp hi
    have heq : i = j := (List.getElem?_inj hlt hkeys).mp (hi.trans hj.symm)
    omega
  rw [getElem?_assign he hx hlast]

variable [Scalar α] {b : Bounds α}

/-! ## What a draw gives -/

/-- What is drawn is the assignment of values that keep the order. -/
theorem of_draw {draws rest : Draws α} (h : r.draw draws = (.ok p, rest)) :
    ∃ values, values.length = r.size ∧ r.ordered values = true ∧ p = r.assign values := by
  unfold draw at h
  cases hvalues : r.drawValues draws with
  | mk result last =>
    rw [hvalues] at h
    cases result with
    | error e => cases h
    | ok values =>
      cases h
      obtain ⟨k, -, hfirst, rfl, -⟩ := drawValues_eq_ok_iff.mp hvalues
      exact ⟨_, length_outcome r draws k, hfirst.ordered, rfl⟩

/-- An assignment of the values that are drawn. -/
theorem draw_of_drawValues {draws rest : Draws α} (h : r.drawValues draws = (.ok values, rest)) :
    r.draw draws = (.ok (r.assign values), rest) := by
  rw [draw, h]
  rfl

/-- A single pulse keeps no order. -/
theorem chains_eq_nil (hr : build? m channels b = some (.ok r)) (hsize : m.size ≤ 1) :
    r.chains = [] := by
  have hresiduals : m.residualChain.length ≤ m.size := by
    have hfilter := List.length_filter_le (fun x : Pulse × Nat => x.1.residual.isSome) m.numbered
    rw [Model.residualChain, List.length_map]
    simpa [Model.numbered, Model.size] using hfilter
  rw [chains_of_build? hr, List.flatten_eq_nil_iff]
  intro cs hcs
  obtain ⟨ch, -, rfl⟩ := List.mem_map.mp hcs
  unfold chainsOf chainOf
  rw [if_neg (by rw [List.length_map, List.length_range']; omega),
    if_neg (by rw [List.length_map]; omega)]
  rfl

/-- An assignment that is drawn from a prior over different channels keeps the order of the prior,
whatever distributions were overwritten before, in any arithmetic.  For a single pulse a channel may
be given twice. -/
theorem draw_satisfied (hr : build? m channels b = some (.ok r))
    (hdistinct : channels.Nodup ∨ m.size ≤ 1) {ds : List (String × Marginal α)}
    (hds : r.overwriteAll ds = .ok r') {attempts : Nat}
    (hattempts : r'.withAttempts? attempts = some r'') {draws rest : Draws α}
    (hdraw : r''.draw draws = (.ok p, rest)) : r''.satisfied p = .ok true := by
  have hkept : Kept r r'' := (overwriteAll_kept hds).trans (withAttempts?_kept hattempts)
  obtain ⟨values, hlength, hordered, rfl⟩ := of_draw hdraw
  unfold satisfied
  rcases hdistinct with hchannels | hsize
  · have hkeys : (r''.entries.map (·.key)).Nodup := by
      rw [hkept.keys, keys_of_build? hr]
      exact nodup_modelKeys hchannels
    rw [values_assign hkeys hlength]
    exact congrArg Except.ok hordered
  · have hchains : r''.chains = [] := hkept.chains.trans (chains_eq_nil hr hsize)
    rw [values_eq_getD fun name hname => (mem_assign hlength).mpr hname]
    exact congrArg Except.ok (by rw [ordered, hchains]; rfl)

/-- Three pulses in two channels, and one pulse in a channel that is given twice after its scale
was overwritten. -/
theorem draw_satisfied_FsGXb :
    (∃ r r' p rest,
      build? ⟨false, [⟨.fred, some .sineGaussian⟩, ⟨.gaussian, none⟩, ⟨.fredx, some .bessel⟩], none⟩
        [.a, .b] tenBounds = some (.ok r) ∧
      r.withAttempts? 5 = some r' ∧ r'.draw lateNinth = (.ok p, rest) ∧
      r'.satisfied p = .ok true) ∧
    ∃ r r' p rest,
      build? ⟨true, [⟨.gaussian, none⟩], none⟩ [.a, .a] tenBounds = some (.ok r) ∧
      r.overwriteAll [("scale_1_a", .uniform (.real 1) (.real 2) (.real 0))] = .ok r' ∧
      r'.draw lateNinth = (.ok p, rest) ∧ r'.satisfied p = .ok true := by
  constructor
  · obtain ⟨r, hr⟩ := exists_build? validate_tenBounds
      ⟨false, [⟨.fred, some .sineGaussian⟩, ⟨.gaussian, none⟩, ⟨.fredx, some .bessel⟩], none⟩
      [.a, .b]
    have hpos : 0 < 5 := by decide
    have hattempts : r.withAttempts? 5 = some { r with attempts := 5, attempts_pos := hpos } :=
      dif_pos hpos
    have hds : r.overwriteAll [] = .ok r := rfl
    have hdraw := draw_of_drawValues (drawValues_eq hr validate_tenBounds lateNinth_value hpos)
    exact ⟨r, _, _, _, hr, hattempts, hdraw,
      draw_satisfied hr (.inl (by decide)) hds hattempts hdraw⟩
  · obtain ⟨r, hr⟩ := exists_build? validate_tenBounds ⟨true, [⟨.gaussian, none⟩], none⟩ [.a, .a]
    have hscale : Key.shape .scale 1 .a ∈ r.entries.map (·.key) := by
      rw [keys_of_build? hr]
      decide
    obtain ⟨r', hr'⟩ := exists_overwrite hscale (by rintro i ⟨⟩; decide)
      (.uniform (.real 1) (.real 2) (.real 0))
    have hname : (Key.shape .scale 1 .a).text = "scale_1_a" := by decide
    rw [hname] at hr'
    have hds := overwriteAll_singleton hr'
    have hchains : r'.chains = [] :=
      (overwriteAll_kept hds).chains.trans (chains_eq_nil hr (by decide))
    have hvalues : r'.drawValues lateNinth = (.ok _, _) :=
      drawValues_of_ordered (by simp [hchains]) (by simp [ordered, hchains])
    have hdraw := draw_of_drawValues hvalues
    exact ⟨r, r', _, _, hr, hds, hdraw,
      draw_satisfied hr (.inr (by decide)) hds (dif_pos r'.attempts_pos) hdraw⟩

/-! ## Channels that are given twice -/

/-- In a list with a repetition something stands for the last time after it stood before. -/
theorem exists_last_of_not_nodup {β : Type} {xs : List β} (h : ¬ xs.Nodup) :
    ∃ front x back, xs = front ++ x :: back ∧ x ∈ front ∧ x ∉ back := by
  induction xs with
  | nil => exact absurd List.nodup_nil h
  | cons y xs ih =>
    by_cases hxs : xs.Nodup
    · have hy : y ∈ xs := by_contra fun hy => h (List.nodup_cons.mpr ⟨hy, hxs⟩)
      obtain ⟨front, back, rfl⟩ := List.append_of_mem hy
      have hback : y ∉ back := (List.nodup_cons.mp (List.nodup_append.mp hxs).2.1).1
      exact ⟨y :: front, y, back, rfl, List.mem_cons_self, hback⟩
    · obtain ⟨front, x, back, rfl, hfront, hback⟩ := ih hxs
      exact ⟨y :: front, x, back, rfl, List.mem_cons_of_mem _ hfront, hback⟩

/-- Of a channel that is given twice every parameter has an entry before the last one. -/
theorem exists_last_entry {front back : List Channel} {ch : Channel} (hfront : ch ∈ front)
    (hback : ch ∉ back) {k : Key} (hk : k ∈ m.keys ch) (hscope : k.quantity.scope ≠ .shared) :
    ∃ before after, modelKeys m (front ++ ch :: back) = before ++ k :: after ∧ k ∈ before ∧
      k ∉ after := by
  have hkeys : modelKeys m (front ++ ch :: back) = modelKeys m front ++
      ((m.keys ch).filter (·.quantity.scope ≠ .shared) ++
        back.flatMap fun ch => (m.keys ch).filter (·.quantity.scope ≠ .shared)) := by
    cases front with
    | nil => cases hfront
    | cons first front => simp [modelKeys]
  obtain ⟨before, after, hsplit⟩ : ∃ before after,
      (m.keys ch).filter (·.quantity.scope ≠ .shared) = before ++ k :: after :=
    List.append_of_mem (by simpa using ⟨hk, hscope⟩)
  have hafter : k ∉ after := by
    have hnodup : ((m.keys ch).filter (·.quantity.scope ≠ .shared)).Nodup :=
      (m.nodup_keys ch).filter _
    rw [hsplit] at hnodup
    exact (List.nodup_cons.mp (List.nodup_append.mp hnodup).2.1).1
  have hothers : k ∉ back.flatMap fun ch => (m.keys ch).filter (·.quantity.scope ≠ .shared) := by
    intro hmem
    obtain ⟨ch', hch', hk'⟩ := List.mem_flatMap.mp hmem
    obtain rfl := Model.channel_unique hk (List.mem_filter.mp hk').1 hscope
    exact hback hch'
  refine ⟨modelKeys m front ++ before,
    after ++ back.flatMap fun ch => (m.keys ch).filter (·.quantity.scope ≠ .shared), ?_, ?_, ?_⟩
  · rw [hkeys, hsplit]
    simp
  · exact List.mem_append_left _ (mem_modelKeys.mpr ⟨ch, hfront, hk⟩)
  · rw [List.mem_append]
    exact fun h => h.elim hafter hothers

/-- Different entries stand at different places. -/
theorem length_ne_of_eq_append_cons {β : Type} {xs front back front' back' : List β} {x x' : β}
    (h : xs = front ++ x :: back) (h' : xs = front' ++ x' :: back') (hne : x ≠ x') :
    front.length ≠ front'.length := by
  intro hlength
  obtain ⟨-, hrest⟩ := List.append_inj (h.symm.trans h') hlength
  exact hne (List.cons.inj hrest).1

/-- The last entry of such a parameter stays as it was drawn, and it is the one that holds. -/
theorem getElem?_assign_last {b : Bounds Exact} {r : Prior Exact} {lo hi : ℝ}
    (hr : build? m channels b = some (.ok r)) (hwindow : b.window = ⟨.real lo, .real hi⟩)
    {pulse : Nat} {ch : Channel} {before after : List Key}
    (hkeys : modelKeys m channels = before ++ .shape .start pulse ch :: after)
    (hbefore : .shape .start pulse ch ∈ before) (hafter : .shape .start pulse ch ∉ after)
    (draws : Draws Exact) {t : ℝ} (ht : draws.value (draws.used + before.length) = .real t) :
    (r.assign (sortChains r.chains (drawn r.entries draws)))[(Key.shape .start pulse ch).text]? =
      some (.real (lo + t * (hi - lo))) := by
  have hplace : (modelKeys m channels)[before.length]? = some (.shape .start pulse ch) := by
    rw [hkeys]
    simp
  -- chains run through the first entries
  have hnotMem : ∀ ch' ∈ channels, ∀ q, before.length ∉ orderedPlaces m channels ch' q := by
    intro ch' hch' q hmem
    obtain ⟨pulse', hpulse', hidx⟩ := List.mem_map.mp hmem
    have hfirst := List.getElem?_idxOf (mem_modelKeys_of_mem_orderedPulses hch' hpulse')
    rw [hidx, hplace, Option.some.injEq] at hfirst
    rw [← hfirst, hkeys, List.idxOf_append_of_mem hbefore] at hidx
    exact absurd hidx (List.idxOf_lt_length_of_mem hbefore).ne
  have hvalue := getElem?_sorted_of_notMem hr hwindow hplace hnotMem draws ht
  rw [← keys_of_build? hr, List.getElem?_map] at hplace
  obtain ⟨e, he, hkey⟩ := Option.map_eq_some_iff.mp hplace
  have hlast : ∀ j e', before.length < j → r.entries[j]? = some e' → e'.key ≠ e.key := by
    intro j e' hj he' hsame
    have hj' : (modelKeys m channels)[j]? = some (.shape .start pulse ch) := by
      rw [← keys_of_build? hr, List.getElem?_map, he', ← hkey, ← hsame]
      rfl
    obtain ⟨n, rfl⟩ : ∃ n, j = before.length + (n + 1) := ⟨j - before.length - 1, by omega⟩
    rw [hkeys, List.getElem?_append_right (by omega), Nat.add_sub_cancel_left,
      List.getElem?_cons_succ] at hj'
    exact hafter (List.mem_of_getElem? hj')
  have hassign := getElem?_assign he hvalue hlast
  rwa [Entry.name, hkey] at hassign

/-- From a prior over a channel that is given twice, of a model with two pulses or more, an
assignment can be drawn that does not keep the order of the prior: the first start late, all others
early. -/
theorem exists_draw_unordered (hchannels : ¬ channels.Nodup) (hsize : 1 < m.size)
    {b : Bounds Exact} (hb : b.validate = .ok ()) :
    ∃ r draws p rest, build? m channels b = some (.ok r) ∧
      (∀ i, 0.0 ≤ draws.value i ∧ draws.value i < 1.0) ∧ r.draw draws = (.ok p, rest) ∧
      r.satisfied p = .ok false := by
  obtain ⟨r, hr⟩ := exists_build? hb m channels
  obtain ⟨lo, hi, hlt, hwindow⟩ := exists_window hb
  obtain ⟨front, ch, back, rfl, hfront, hback⟩ := exists_last_of_not_nodup hchannels
  have hsplit (i : Nat) (hi : i ∈ List.range' 1 m.size) :=
    exists_last_entry (k := .shape .start i ch) hfront hback (Model.start_mem_keys hi) nofun
  obtain ⟨before, after, hkeys, hbefore, hafter⟩ := hsplit 1 (by rw [List.mem_range'_1]; omega)
  obtain ⟨before', after', hkeys', hbefore', hafter'⟩ :=
    hsplit 2 (by rw [List.mem_range'_1]; omega)
  have hplaces : before'.length ≠ before.length :=
    length_ne_of_eq_append_cons hkeys' hkeys (by simp)
  let draws := lateAt before.length
  have hlate : draws.value (draws.used + before.length) = .real 0.9 := by
    simp [draws, lateAt]
  have hearly : draws.value (draws.used + before'.length) = .real 0.1 := by
    simp [draws, lateAt, hplaces]
  let sorted := sortChains r.chains (drawn r.entries draws)
  have hdraw : r.draw draws = (.ok (r.assign sorted), { draws with used := draws.used + r.size }) :=
    draw_of_drawValues (drawValues_eq hr hb (lateAt_value before.length) r.attempts_pos)
  refine ⟨r, draws, r.assign sorted, _, hr, lateAt_value before.length, hdraw, ?_⟩
  have hfirst := getElem?_assign_last hr hwindow hkeys hbefore hafter draws hlate
  have hsecond := getElem?_assign_last hr hwindow hkeys' hbefore' hafter' draws hearly
  have hlength : sorted.length = r.size := (length_sortChains ..).trans (length_drawn ..)
  rw [satisfied, values_eq_getD fun name hname => (mem_assign hlength).mpr hname, keys_of_build? hr]
  refine congrArg Except.ok (Bool.eq_false_iff.mpr fun hordered => ?_)
  have hstep := (ordered_iff hr _).mp hordered ch (by simp) .start 1 2
    (Chain.mem_pairs_range'.mpr ⟨le_refl 2, hsize, rfl⟩)
  have hnonneg := hstep.1
  rw [Std.ExtTreeMap.getD_eq_getD_getElem?, Std.ExtTreeMap.getD_eq_getD_getElem?, hfirst, hsecond,
    Option.getD_some, Option.getD_some, Exact.zero_eq, Exact.real_sub_real, Exact.real_le_real]
    at hnonneg
  linarith

/-- From a prior of two pulses over a channel that is given twice, starts that descend are drawn. -/
theorem draw_unordered_GG :
    ∃ r draws p rest,
      build? ⟨false, [⟨.gaussian, none⟩, ⟨.gaussian, none⟩], none⟩ [.a, .a]
        tenBounds = some (.ok r) ∧
      (∀ i, 0.0 ≤ draws.value i ∧ draws.value i < 1.0) ∧ r.draw draws = (.ok p, rest) ∧
      r.satisfied p = .ok false :=
  exists_draw_unordered (by decide) (by decide) validate_tenBounds

end PulseFit.Prior
