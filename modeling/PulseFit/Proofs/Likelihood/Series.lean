import PulseFit.Proofs.BinnedCounts.Json
import PulseFit.Proofs.Likelihood.Joint
import PulseFit.Proofs.Scalar.Exact

/-!
# Proofs.Likelihood.Series — series and their likelihoods

A likelihood of a channel of a series fails exactly if the series has no column for the channel, or
a number of rows that is not that of its bins.  A series made from bins is well formed and so has a
likelihood for every channel, model and list of channels; one that is read from a text may lack any
of this (`BinnedCounts.made_or_read`).
-/

namespace PulseFit

variable {α : Type} [Scalar α] {s : BinnedCounts α} {m : Model} {ch : Channel}

namespace ChannelLikelihood

theorem ofSeries?_eq_none_iff : ofSeries? s m ch = none ↔ s.counts.columns ≤ ch.index := by
  rw [ofSeries?, Option.map_eq_none_iff, BinnedCounts.counts?_eq_none_iff]

theorem ofSeries?_eq_ok_iff {l : ChannelLikelihood α} :
    ofSeries? s m ch = some (.ok l) ↔ s.counts? ch = some l.counts ∧ l.times = s.left ∧
      l.model = m ∧ l.channel = ch := by
  rw [ofSeries?, Option.map_eq_some_iff]
  constructor
  · rintro ⟨counts, hcounts, h⟩
    unfold ofCounts at h
    split at h
    · cases h
      exact ⟨hcounts, rfl, rfl, rfl⟩
    · cases h
  · rintro ⟨hcounts, htimes, rfl, rfl⟩
    refine ⟨l.counts, hcounts, ?_⟩
    rw [← htimes, ofCounts, dif_pos l.size_eq]

/-- The one error is that the rows are not as many as the bins. -/
theorem ofSeries?_eq_error_iff {e : LikelihoodError α} :
    ofSeries? s m ch = some (.error e) ↔ ch.index < s.counts.columns ∧
      s.counts.rows ≠ s.left.size ∧ e = .lengthMismatch s.left.size s.counts.rows := by
  cases hcounts : s.counts? ch with
  | none =>
    have hindex := BinnedCounts.counts?_eq_none_iff.mp hcounts
    rw [ofSeries?, hcounts]
    exact iff_of_false nofun fun h => by omega
  | some counts =>
    have hindex : ch.index < s.counts.columns := by
      by_contra hnot
      rw [BinnedCounts.counts?_eq_none_iff.mpr (by omega)] at hcounts
      cases hcounts
    have hsize := Table.size_of_column? hcounts
    rw [ofSeries?, hcounts, Option.map_some, Option.some.injEq, ofCounts, ← hsize]
    split
    · next hrows => exact iff_of_false nofun fun h => h.2.1 hrows
    · next hrows =>
      rw [Except.error.injEq]
      exact ⟨fun h => ⟨hindex, hrows, h.symm⟩, fun h => h.2.2.symm⟩

/-- A series whose edges match its table has counts for every channel. -/
theorem exists_ofSeries? (hs : s.valid = true) (m : Model) (ch : Channel) :
    ∃ l, ofSeries? s m ch = some (.ok l) := by
  obtain ⟨counts, h⟩ := (BinnedCounts.valid_iff.mp hs).exists_gives ch
  exact ⟨⟨m, ch, s.left, counts, h.size_counts⟩,
    ofSeries?_eq_ok_iff.mpr ⟨h.counts_eq, rfl, rfl, rfl⟩⟩

end ChannelLikelihood

namespace JointLikelihood

/-- The likelihoods of channels of a series, one for each. -/
theorem channelsOfSeries?_eq_ok_iff {s : BinnedCounts α} {m : Model} {channels : List Channel}
    {ls : List (ChannelLikelihood α)} :
    channelsOfSeries? s m channels = some (.ok ls) ↔
      List.Forall₂ (fun ch l => ChannelLikelihood.ofSeries? s m ch = some (.ok l)) channels ls := by
  induction channels generalizing ls with
  | nil =>
    rw [List.forall₂_nil_left_iff]
    constructor
    · intro h
      cases h
      rfl
    · rintro rfl
      rfl
  | cons ch rest ih =>
    rw [List.forall₂_cons_left_iff]
    constructor
    · intro h
      unfold channelsOfSeries? at h
      split at h
      · cases h
      · cases h
      · next l hl =>
        obtain ⟨tail, htail, h⟩ := Option.map_eq_some_iff.mp h
        cases tail with
        | error e => cases h
        | ok ls' =>
          cases h
          exact ⟨l, ls', hl, ih.mp htail, rfl⟩
    · rintro ⟨l, ls', hl, hrest, rfl⟩
      rw [channelsOfSeries?, hl, ih.mpr hrest]
      rfl

theorem ofSeries?_eq_ok_iff {s : BinnedCounts α} {m : Model} {channels : List Channel}
    {j : JointLikelihood α} :
    ofSeries? s m channels = some (.ok j) ↔
      List.Forall₂ (fun ch l => ChannelLikelihood.ofSeries? s m ch = some (.ok l)) channels
        j.channels := by
  rw [← channelsOfSeries?_eq_ok_iff, ofSeries?]
  constructor
  · intro h
    obtain ⟨ls?, hls, h⟩ := Option.map_eq_some_iff.mp h
    cases ls? with
    | error e => cases h
    | ok ls =>
      have h : ofChannels ls = .ok j := h
      unfold ofChannels at h
      split at h
      · cases h
      · cases h
        exact hls
  · intro h
    rw [h]
    exact congrArg some (dif_neg j.channels_ne_nil)

/-- A series whose edges match its table has a joint likelihood over any channels. -/
theorem exists_ofSeries? {s : BinnedCounts α} (hs : s.valid = true) (m : Model)
    {channels : List Channel} (hne : channels ≠ []) :
    ∃ j, ofSeries? s m channels = some (.ok j) := by
  choose l hl using ChannelLikelihood.exists_ofSeries? hs m
  have hne' : channels.map l ≠ [] := by simpa using hne
  refine ⟨⟨channels.map l, hne'⟩, ofSeries?_eq_ok_iff.mpr ?_⟩
  rw [List.forall₂_map_right_iff, List.forall₂_same]
  intro ch _
  exact hl ch

/-- A joint likelihood of a series is over the channels it was asked for. -/
theorem map_channel_of_ofSeries? {channels : List Channel} {j : JointLikelihood α}
    (h : ofSeries? s m channels = some (.ok j)) : j.channels.map (·.channel) = channels := by
  have hall := ofSeries?_eq_ok_iff.mp h
  have hchannels : List.Forall₂ (fun ch l => l.channel = ch) channels j.channels :=
    hall.imp fun ch l hl => (ChannelLikelihood.ofSeries?_eq_ok_iff.mp hl).2.2.2
  rw [← List.forall₂_eq_eq_eq, List.forall₂_map_left_iff]
  exact hchannels.flip

end JointLikelihood

namespace BinnedCounts

/-- Series are made or read.  A series is made from bins and counts exactly if they are well formed.
From a text it is read exactly if the text holds three arrays, of which the table is full, and every
series whose arrays can be written is read back, well formed or not.  A well-formed series has
counts, widths, rates and a likelihood of every model for every channel, and joint likelihoods.  A
series of another shape lacks exactly what its columns and the lengths of its arrays do not allow.
-/
theorem made_or_read {α : Type} [Scalar α] :
    (∀ (left right : Array α) (counts : Table α) (b : BinnedCounts α),
      ofBins? left right counts = some b ↔ b = ⟨left, right, counts⟩ ∧ b.WellFormed) ∧
    (∀ (text : String) (b : BinnedCounts α), (Json.read? text).bind ofJson? = some b ↔
      ∃ v, Json.read? text = some v ∧ b.Held v) ∧
    (∀ (v : Json.Value) (b : BinnedCounts α), b.Held v → b.counts.Full) ∧
    (∀ (number : α → Json.Value) (b : BinnedCounts α), b.Writable number →
      (Json.read? (b.toJson number).render).bind ofJson? = some b) ∧
    (∀ b : BinnedCounts α, b.WellFormed → b.totals.size = b.size ∧
      (∀ ch, ∃ counts, b.Gives ch counts ∧ ∀ m, ∃ l,
        ChannelLikelihood.ofSeries? b m ch = some (.ok l) ∧ l.times = b.left ∧
          l.counts = counts) ∧
      ∀ m channels, channels ≠ [] → ∃ j, JointLikelihood.ofSeries? b m channels = some (.ok j) ∧
        j.channels.map (·.channel) = channels) ∧
    ∀ (b : BinnedCounts α) (ch : Channel), b.totals.size = b.counts.rows ∧
      (b.counts? ch = none ↔ b.counts.columns ≤ ch.index) ∧
      (b.rates? ch = none ↔ b.counts.columns ≤ ch.index ∨
        ¬ Combinable b.right.size b.left.size ∨
        ¬ Combinable b.counts.rows (combinedSize b.right.size b.left.size)) ∧
      ∀ m, (ChannelLikelihood.ofSeries? b m ch = none ↔ b.counts.columns ≤ ch.index) ∧
        ∀ e, ChannelLikelihood.ofSeries? b m ch = some (.error e) ↔
          ch.index < b.counts.columns ∧ b.counts.rows ≠ b.left.size ∧
            e = .lengthMismatch b.left.size b.counts.rows := by
  refine ⟨fun left right counts b => ofBins?_eq_some_iff, fun text b => ?_,
    fun v b h => h.full, fun number b h => ofJson?_render h, fun b h => ⟨?_, ?_, ?_⟩,
    fun b ch => ⟨size_totals, counts?_eq_none_iff, rates?_eq_none_iff, fun m => ?_⟩⟩
  · rw [Option.bind_eq_some_iff]
    simp only [ofJson?_eq_some_iff]
  · rw [size_totals, h.rows_eq, size]
  · intro ch
    obtain ⟨counts, hcounts⟩ := h.exists_gives ch
    refine ⟨counts, hcounts, fun m => ⟨⟨m, ch, b.left, counts, hcounts.size_counts⟩, ?_, rfl, rfl⟩⟩
    exact ChannelLikelihood.ofSeries?_eq_ok_iff.mpr ⟨hcounts.counts_eq, rfl, rfl, rfl⟩
  · intro m channels hne
    obtain ⟨j, hj⟩ := JointLikelihood.exists_ofSeries? (valid_iff.mpr h) m hne
    exact ⟨j, hj, JointLikelihood.map_channel_of_ofSeries? hj⟩
  · exact ⟨ChannelLikelihood.ofSeries?_eq_none_iff,
      fun e => ChannelLikelihood.ofSeries?_eq_error_iff⟩

/-! ## A bin that ends before it begins -/

/-- Natural numbers as they are written. -/
noncomputable def natural (x : Exact) : Json.Value := .ofNat (Scalar.toNat x)

theorem natural_natCast (n : ℕ) : natural (.real n) = .ofNat n := by
  have hfloor : ⌊(n : ℝ)⌋₊ = n := Nat.floor_natCast n
  exact congrArg Json.Value.ofNat hfloor

theorem legible_natural {n : ℕ} (h : n < Numeral.gatherBound) :
    Json.Legible natural (.real n) := by
  refine ⟨rfl, ?_, ?_⟩
  · rw [natural_natCast]
    exact .number (Numeral.valid_ofNat n)
  · rw [natural_natCast]
    exact Numeral.scaled?_ofNat h

/-- A single bin, which ends before it begins, with two rows of one column. -/
def misshapen : BinnedCounts Exact where
  left := #[.real (1 : ℕ)]
  right := #[.real (0 : ℕ)]
  counts := ⟨2, 1, #[.real (3 : ℕ), .real (5 : ℕ)]⟩

theorem writable_misshapen : misshapen.Writable natural where
  full := rfl
  left_size := by decide
  right_size := by decide
  table_size := by decide
  left x hx := by
    obtain rfl := Array.mem_singleton.mp hx
    exact legible_natural (by decide)
  right x hx := by
    obtain rfl := Array.mem_singleton.mp hx
    exact legible_natural (by decide)
  counts x hx := by
    have hx : x = .real (3 : ℕ) ∨ x = .real (5 : ℕ) := by simpa [misshapen] using hx
    rcases hx with rfl | rfl <;> exact legible_natural (by decide)

/-- A well-formed series of one bin has likelihoods, also with channels in any order and repeated.
A misshapen one is read back from its text; its table is full, but it has no counts for the last
channel and no likelihood for the first. -/
theorem made_or_read_misshapen :
    (∃ b l j, ofBins? #[Exact.real 0] #[.real 1] ⟨1, 4, #[.real 1, .real 0, .real 0, .real 1]⟩ =
        some b ∧
      ChannelLikelihood.ofSeries? b ⟨true, [⟨.fred, none⟩], none⟩ .d = some (.ok l) ∧
      l.counts[0]? = some (.real 1) ∧
      JointLikelihood.ofSeries? b ⟨true, [⟨.fred, none⟩], none⟩ [.d, .a, .d] = some (.ok j) ∧
      j.channels.map (·.channel) = [.d, .a, .d]) ∧
    (Json.read? (misshapen.toJson natural).render).bind ofJson? = some misshapen ∧
      misshapen.counts.Full ∧ misshapen.counts? .d = none ∧
      ChannelLikelihood.ofSeries? misshapen ⟨true, [⟨.fred, none⟩], none⟩ .a =
        some (.error (.lengthMismatch 1 2)) := by
  obtain ⟨hmade, hread, hheld, hwritten, hwell, hany⟩ := made_or_read (α := Exact)
  have hform : WellFormed ⟨#[Exact.real 0], #[.real 1],
      ⟨1, 4, #[.real 1, .real 0, .real 0, .real 1]⟩⟩ := by
    refine ⟨rfl, rfl, rfl, fun i hl hr => ?_⟩
    obtain rfl : i = 0 := Nat.lt_one_iff.mp hl
    exact zero_lt_one (α := ℝ)
  obtain ⟨-, hchannels, hjoint⟩ := hwell _ hform
  obtain ⟨counts, hcounts, hlikelihood⟩ := hchannels .d
  obtain ⟨l, hl, -, hl'⟩ := hlikelihood ⟨true, [⟨.fred, none⟩], none⟩
  obtain ⟨j, hj, hj'⟩ := hjoint ⟨true, [⟨.fred, none⟩], none⟩ [.d, .a, .d] (by decide)
  have hback := hwritten natural misshapen writable_misshapen
  obtain ⟨v, -, hv⟩ := (hread _ _).mp hback
  refine ⟨⟨_, l, j, (hmade _ _ _ _).mpr ⟨rfl, hform⟩, hl, ?_, hj, hj'⟩, hback, hheld v _ hv,
    (hany misshapen .d).2.1.mpr (by decide), ?_⟩
  · rw [hl']
    exact hcounts.entries rfl 0 Nat.one_pos
  · exact (((hany misshapen .a).2.2.2 _).2 _).mpr ⟨by decide, by decide, rfl⟩

/-- The text of the misshapen series. -/
def misshapenText : String :=
  "\x7b\"bin_left\":\x7b\"v\":1,\"dim\":[1],\"data\":[1]\x7d," ++
    "\"bin_right\":\x7b\"v\":1,\"dim\":[1],\"data\":[0]\x7d," ++
    "\"counts\":\x7b\"v\":1,\"dim\":[2,1],\"data\":[3,5]\x7d\x7d"

/-- The text is read as a series that is not well formed: it has no counts and no rates for the last
channel, and no likelihood for the first, as its two rows are not as many as its bins. -/
theorem read_misshapen :
    (Json.read? misshapenText).bind ofJson? = some misshapen ∧ ¬ misshapen.WellFormed ∧
      misshapen.counts? .d = none ∧ misshapen.rates? .d = none ∧
      ChannelLikelihood.ofSeries? misshapen ⟨true, [⟨.fred, none⟩], none⟩ .a =
        some (.error (.lengthMismatch 1 2)) := by
  have htext : (misshapen.toJson natural).render = misshapenText := by
    simp only [toJson, misshapen, Table.shapedJson, Json.ofScalar, List.map, natural_natCast,
      Exact.isFinite_real, if_true, List.size_toArray, List.length_cons, List.length_nil]
    cbv
  have hread := ofJson?_render writable_misshapen
  rw [htext] at hread
  have hcolumns : misshapen.counts.columns ≤ Channel.d.index := by decide
  exact ⟨hread, fun h => absurd h.columns_eq (by decide), counts?_eq_none_iff.mpr hcolumns,
    rates?_eq_none_iff.mpr (.inl hcolumns),
    ChannelLikelihood.ofSeries?_eq_error_iff.mpr ⟨by decide, by decide, rfl⟩⟩

end BinnedCounts

end PulseFit
