import PulseFit.Proofs.Prior.Sampling
import PulseFit.Proofs.Prior.Support

/-!
# Proofs.Prior.Attempts — draws from a prior with other distributions

If distributions were overwritten, sorting may not be enough to keep the order, and some attempts
fail.  Every attempt takes a block of random numbers, one for each entry; a draw gives the values of
the first block that keep the order and fails if those of no block do (`drawValues_eq_ok_iff`,
`drawValues_eq_error_iff`).  Sorting moves values from entry to entry, but only within chains whose
members have one distribution (`outcome_sorts`), so every value stays in the interval of the entry
at which it ends up (`supports_outcome`), and no draw is a point of density zero.
-/

namespace PulseFit

open Scalar (negInfinity ln LawfulTotal)

namespace Prior

/-! ## One block after the other -/

section

variable {α : Type} {r : Prior α} {draws rest : Draws α} {values : List α}

/-- The stream after some blocks of random numbers. -/
def skip (r : Prior α) (draws : Draws α) (blocks : Nat) : Draws α :=
  { draws with used := draws.used + blocks * r.size }

theorem skip_skip (r : Prior α) (draws : Draws α) (k l : Nat) :
    r.skip (r.skip draws k) l = r.skip draws (k + l) := by
  unfold skip
  rw [Nat.add_mul, Nat.add_assoc]

variable [Scalar α]

/-- The values of a block: those that are drawn, sorted along the chains whose members have one
distribution. -/
def outcome (r : Prior α) (draws : Draws α) (block : Nat) : List α :=
  sortChains (r.chains.filter (exchangeable r.entries)) (drawn r.entries (r.skip draws block))

theorem outcome_skip (r : Prior α) (draws : Draws α) (k l : Nat) :
    r.outcome (r.skip draws k) l = r.outcome draws (k + l) := by
  unfold outcome
  rw [skip_skip]

theorem length_outcome (r : Prior α) (draws : Draws α) (block : Nat) :
    (r.outcome draws block).length = r.size :=
  (length_sortChains ..).trans (length_drawn ..)

theorem sortable_exchangeable (h : Sortable r.size r.chains) (draws : Draws α) :
    Sortable (drawn r.entries draws).length (r.chains.filter (exchangeable r.entries)) := by
  rw [length_drawn]
  exact h.mono (List.filter_subset_self _)

/-- A chain whose members have one distribution holds the values that were drawn for them, in
ascending order.  A place in no such chain holds the value that was drawn for it. -/
theorem outcome_sorts [LawfulTotal α] (h : Sortable r.size r.chains) (draws : Draws α)
    (block : Nat) :
    (∀ c ∈ r.chains, exchangeable r.entries c = true → c.Ascends (r.outcome draws block) ∧
      (c.members.map (Chain.valueAt (r.outcome draws block))).Perm
        (c.members.map (Chain.valueAt (drawn r.entries (r.skip draws block))))) ∧
    ∀ i, (∀ c ∈ r.chains, exchangeable r.entries c = true → i ∉ c.members) →
      (r.outcome draws block)[i]? = (drawn r.entries (r.skip draws block))[i]? := by
  have hsortable := sortable_exchangeable h (r.skip draws block)
  refine ⟨fun c hc hexchangeable => ?_, fun i hi => ?_⟩
  · have hc' : c ∈ r.chains.filter (exchangeable r.entries) :=
      List.mem_filter.mpr ⟨hc, hexchangeable⟩
    exact ⟨ascends_sortChains hsortable hc', perm_sortChains hsortable hc'⟩
  · refine getElem?_sortChains_of_notMem fun c hc => ?_
    obtain ⟨hc, hexchangeable⟩ := List.mem_filter.mp hc
    exact hi c hc hexchangeable

/-- The first block whose values keep the order. -/
structure FirstOrdered (r : Prior α) (draws : Draws α) (block : Nat) : Prop where
  ordered : r.ordered (r.outcome draws block) = true
  before : ∀ earlier < block, r.ordered (r.outcome draws earlier) = false

/-- An attempt takes the first block. -/
theorem attempt_succ (r : Prior α) (n : Nat) (draws : Draws α) :
    attempt r (r.chains.filter (exchangeable r.entries)) (n + 1) draws =
      if r.ordered (r.outcome draws 0) then (some (r.outcome draws 0), r.skip draws 1)
      else attempt r (r.chains.filter (exchangeable r.entries)) n (r.skip draws 1) := by
  have hfirst : r.skip draws 0 = draws := by
    unfold skip
    rw [Nat.zero_mul, Nat.add_zero]
  have hnext : r.skip draws 1 = { draws with used := draws.used + r.entries.length } := by
    unfold skip size
    rw [Nat.one_mul]
  rw [attempt, drawEntries_eq, outcome, hfirst, hnext]

/-- The attempts end with the first block that keeps the order, or all blocks fail. -/
theorem attempt_cases (r : Prior α) (n : Nat) (draws : Draws α) :
    (∃ k < n, r.FirstOrdered draws k ∧
      attempt r (r.chains.filter (exchangeable r.entries)) n draws =
        (some (r.outcome draws k), r.skip draws (k + 1))) ∨
    (∀ k < n, r.ordered (r.outcome draws k) = false) ∧
      attempt r (r.chains.filter (exchangeable r.entries)) n draws = (none, r.skip draws n) := by
  induction n generalizing draws with
  | zero =>
    right
    refine ⟨fun k hk => absurd hk (Nat.not_lt_zero k), ?_⟩
    unfold skip
    rw [attempt, Nat.zero_mul, Nat.add_zero]
  | succ n ih =>
    rw [attempt_succ]
    by_cases hordered : r.ordered (r.outcome draws 0) = true
    · rw [if_pos hordered]
      exact .inl ⟨0, Nat.succ_pos n, ⟨hordered, fun l hl => absurd hl (Nat.not_lt_zero l)⟩, rfl⟩
    · rw [if_neg hordered]
      have hzero : r.ordered (r.outcome draws 0) = false := Bool.eq_false_iff.mpr hordered
      -- block `l` of the rest of the stream is block `l + 1` of the stream
      have hblock (l : Nat) : r.outcome (r.skip draws 1) l = r.outcome draws (l + 1) := by
        rw [outcome_skip, Nat.add_comm]
      have hbefore {k : Nat}
          (h : ∀ l < k, r.ordered (r.outcome (r.skip draws 1) l) = false) :
          ∀ l < k + 1, r.ordered (r.outcome draws l) = false := by
        intro l hl
        cases l with
        | zero => exact hzero
        | succ l =>
          rw [← hblock]
          exact h l (by omega)
      rcases ih (r.skip draws 1) with ⟨k, hk, hfirst, heq⟩ | ⟨hnone, heq⟩
      · left
        refine ⟨k + 1, by omega, ⟨?_, hbefore hfirst.before⟩, ?_⟩
        · rw [← hblock]
          exact hfirst.ordered
        · rw [heq, hblock, skip_skip, Nat.add_comm 1 (k + 1)]
      · right
        refine ⟨hbefore hnone, ?_⟩
        rw [heq, skip_skip, Nat.add_comm 1 n]

/-- A draw either gives the values of the first block that keep the order, or there is none among
those that are tried. -/
theorem drawValues_cases (r : Prior α) (draws : Draws α) :
    (∃ k < r.attempts, r.FirstOrdered draws k ∧
      r.drawValues draws = (.ok (r.outcome draws k), r.skip draws (k + 1))) ∨
    (∀ k < r.attempts, r.ordered (r.outcome draws k) = false) ∧
      r.drawValues draws = (.error (.rejectionLimit r.attempts), r.skip draws r.attempts) := by
  unfold drawValues
  rcases attempt_cases r r.attempts draws with ⟨k, hk, hfirst, heq⟩ | ⟨hnone, heq⟩
  · rw [heq]
    exact .inl ⟨k, hk, hfirst, rfl⟩
  · rw [heq]
    exact .inr ⟨hnone, rfl⟩

theorem drawValues_eq_ok_iff :
    r.drawValues draws = (.ok values, rest) ↔ ∃ k < r.attempts, r.FirstOrdered draws k ∧
      values = r.outcome draws k ∧ rest = r.skip draws (k + 1) := by
  rcases drawValues_cases r draws with ⟨k, hk, hfirst, heq⟩ | ⟨hnone, heq⟩
  · rw [heq]
    constructor
    · rintro ⟨⟩
      exact ⟨k, hk, hfirst, rfl, rfl⟩
    · rintro ⟨l, -, hfirst', rfl, rfl⟩
      -- there is one first block only
      have hle : k ≤ l := by
        by_contra hlt
        exact absurd hfirst'.ordered (Bool.eq_false_iff.mp (hfirst.before l (by omega)))
      have hge : l ≤ k := by
        by_contra hlt
        exact absurd hfirst.ordered (Bool.eq_false_iff.mp (hfirst'.before k (by omega)))
      rw [Nat.le_antisymm hle hge]
  · rw [heq]
    constructor
    · intro h
      cases h
    · rintro ⟨k, hk, hfirst, -⟩
      exact absurd hfirst.ordered (Bool.eq_false_iff.mp (hnone k hk))

theorem drawValues_eq_error_iff {e : PriorError α} :
    r.drawValues draws = (.error e, rest) ↔
      (∀ k < r.attempts, r.ordered (r.outcome draws k) = false) ∧
        e = .rejectionLimit r.attempts ∧ rest = r.skip draws r.attempts := by
  rcases drawValues_cases r draws with ⟨k, hk, hfirst, heq⟩ | ⟨hnone, heq⟩
  · rw [heq]
    constructor
    · intro h
      cases h
    · rintro ⟨hnone, -⟩
      exact absurd hfirst.ordered (Bool.eq_false_iff.mp (hnone k hk))
  · rw [heq]
    constructor
    · rintro ⟨⟩
      exact ⟨hnone, rfl, rfl⟩
    · rintro ⟨-, rfl, rfl⟩
      rfl

theorem length_of_drawValues (h : r.drawValues draws = (.ok values, rest)) :
    values.length = r.size := by
  obtain ⟨k, -, -, rfl, -⟩ := drawValues_eq_ok_iff.mp h
  exact length_outcome r draws k

/-- Each of several draws has a value for each entry. -/
theorem length_of_drawMany {n : Nat} {drawn : List (List α)}
    (h : (r.drawMany n draws).1 = .ok drawn) :
    drawn.length = n ∧ ∀ values ∈ drawn, values.length = r.size := by
  induction n generalizing draws drawn with
  | zero =>
    cases h
    exact ⟨rfl, fun _ hvalues => nomatch hvalues⟩
  | succ n ih =>
    unfold drawMany at h
    split at h
    · cases h
    · next xs draws' hxs =>
      cases hlater : (r.drawMany n draws').1 with
      | error e =>
        dsimp only at h
        rw [hlater] at h
        cases h
      | ok later =>
        dsimp only at h
        rw [hlater] at h
        cases h
        obtain ⟨hcount, hall⟩ := ih hlater
        refine ⟨congrArg (· + 1) hcount, fun values hvalues => ?_⟩
        rcases List.mem_cons.mp hvalues with rfl | hvalues
        · exact length_of_drawValues hxs
        · exact hall values hvalues

end

end Prior

/-! ## One distribution -/

namespace Marginal

variable {d d' : Marginal Exact}

/-- A draw from a distribution is in its interval. -/
theorem IsProper.supports_draw (h : d.IsProper) {u : Exact} (hu : 0.0 ≤ u) (hu' : u < 1.0) :
    d.Supports (d.draw u) := by
  unfold Supports
  cases h with
  | uniform hlt hd =>
    obtain ⟨t, hlo, hhi, ht⟩ := Prior.draw_inWindow hlt hd hu hu'
    rw [support_of_uniform? hd, ht]
    exact ⟨hlo, hhi⟩
  | @logUniform l h _ hl hlt hd =>
    have hlog : Real.log l ≤ Real.log h := Real.log_le_log hl hlt.le
    obtain ⟨t, hlo, hhi, ht⟩ := Prior.inWindow_fraction hlog hu hu'
    have hdraw : d.draw u = .real (Real.exp t) := by
      obtain ⟨-, rfl⟩ := logUniform?_eq_some hd
      rw [draw, Exact.ln_real hl, Exact.ln_real (hl.trans hlt), ht]
      rfl
    rw [support_of_logUniform? hl hlt hd, hdraw, Exact.real_le_real, Exact.real_le_real]
    exact ⟨(Real.log_le_iff_le_exp hl).mp hlo, (Real.le_log_iff_exp_le (hl.trans hlt)).mp hhi⟩

/-- Without rounding, numbers that compare as equal are the same. -/
theorem eq_of_beq {x y : Exact} (h : (x == y) = true) : x = y := by
  classical
  obtain ⟨hxy, hyx⟩ : x.le y ∧ y.le x := of_decide_eq_true h
  cases x <;> cases y <;>
    first
      | rfl
      | exact hxy.elim
      | exact hyx.elim
      | exact congrArg Exact.real (le_antisymm hxy hyx)

theorem eq_of_same (h : d.same d' = true) : d = d' := by
  cases d <;> cases d' <;> simp only [same, Bool.and_eq_true, Bool.false_eq_true] at h
  all_goals rw [eq_of_beq h.1.1, eq_of_beq h.1.2, eq_of_beq h.2]

end Marginal

/-! ## Values that are drawn -/

namespace Prior

section

variable {r : Prior Exact} {draws : Draws Exact}

/-- Overwriting with proper distributions leaves all distributions proper. -/
theorem IsProper.overwriteEach (h : r.IsProper) {ds : List (String × Marginal Exact)}
    (hds : ∀ change ∈ ds, change.2.IsProper) : (r.overwriteEach ds).IsProper := by
  refine overwriteEach_invariant (P := IsProper) (fun change hchange s t hs ht e he => ?_) h
  obtain ⟨k, -, -, rfl⟩ := overwrite_eq_ok_iff.mp ht
  rcases mem_replace he with rfl | he
  · exact hds change hchange
  · exact hs e he

/-- The members of a chain that is sorted have one distribution. -/
theorem marginal_eq_of_exchangeable {entries : List (Entry Exact)} {c : Chain Exact}
    (h : exchangeable entries c = true) {i j : Nat} (hi : i ∈ c.members) (hj : j ∈ c.members)
    {e e' : Entry Exact} (he : entries[i]? = some e) (he' : entries[j]? = some e') :
    e.marginal = e'.marginal := by
  have hmem : e ∈ c.members.filterMap (entries[·]?) := List.mem_filterMap.mpr ⟨i, hi, he⟩
  have hmem' : e' ∈ c.members.filterMap (entries[·]?) := List.mem_filterMap.mpr ⟨j, hj, he'⟩
  unfold exchangeable at h
  split at h
  · next hnil =>
    rw [hnil] at hmem
    cases hmem
  · next first rest hcons =>
    have hfirst : ∀ d ∈ first :: rest, first.marginal = d.marginal := by
      intro d hd
      rcases List.mem_cons.mp hd with rfl | hd
      · rfl
      · exact Marginal.eq_of_same (List.all_eq_true.mp h d hd)
    rw [hcons] at hmem hmem'
    exact (hfirst e hmem).symm.trans (hfirst e' hmem')

/-- All values are in the intervals of the distributions at their places. -/
theorem supports_outcome (hproper : r.IsProper)
    (hsortable : Sortable r.size r.chains)
    (hdraws : ∀ i, 0.0 ≤ draws.value i ∧ draws.value i < 1.0) (block : Nat) {i : Nat}
    {e : Entry Exact} (he : r.entries[i]? = some e) :
    e.marginal.Supports (Chain.valueAt (r.outcome draws block) i) := by
  refine forall_sortChains
    (P := fun i x => ∀ e, r.entries[i]? = some e → e.marginal.Supports x)
    (sortable_exchangeable hsortable (r.skip draws block)) (fun c hc i hi j hj x hx e he => ?_)
    (fun i e he => ?_) i e he
  · -- from place to place within a chain
    obtain ⟨hc, hexchangeable⟩ := List.mem_filter.mp hc
    obtain ⟨d, hd⟩ : ∃ d, r.entries[i]? = some d :=
      ⟨_, List.getElem?_eq_getElem (hsortable.bound c hc i hi)⟩
    rw [← marginal_eq_of_exchangeable hexchangeable hi hj hd he]
    exact hx d hd
  · obtain ⟨hu, hu'⟩ := hdraws ((r.skip draws block).used + i)
    rw [Chain.valueAt, List.getD_eq_getElem?_getD, getElem?_drawn, he]
    exact (hproper e (List.mem_of_getElem? he)).supports_draw hu hu'

/-- Values for all entries, in their order, that keep the order of all chains and are in the
intervals of the distributions. -/
structure Admits (r : Prior Exact) (values : List Exact) : Prop where
  length : values.length = r.size
  ordered : r.ordered values = true
  supports : ∀ (i : Nat) (e : Entry Exact), r.entries[i]? = some e →
    e.marginal.Supports (Chain.valueAt values i)

/-- The density of values that are admitted is not zero. -/
theorem Admits.exists_logOfValues? {values : List Exact} (h : r.Admits values)
    (hproper : r.IsProper) : ∃ x, r.logOfValues? values = some x ∧ negInfinity < x := by
  refine ⟨_, if_pos h.length, ?_⟩
  rw [negInfinity_lt_logOfValues_iff]
  refine ⟨h.ordered, fun pair hpair => ?_⟩
  obtain ⟨i, hi⟩ := List.getElem?_of_mem hpair
  obtain ⟨he, hx⟩ := List.getElem?_zip_eq_some.mp hi
  have hvalue : Chain.valueAt values i = pair.2 := by
    rw [Chain.valueAt, List.getD_eq_getElem?_getD, hx, Option.getD_some]
  rw [(hproper pair.1 (List.mem_of_getElem? he)).negInfinity_lt_iff, ← hvalue]
  exact h.supports i pair.1 he

/-- If the interval of a member of a chain lies before that of its predecessor, no values are
admitted. -/
theorem not_admits {c : Chain Exact} (hc : c ∈ r.chains) {i j : Nat}
    (hpair : (i, j) ∈ Chain.pairs c.members) {e e' : Entry Exact} (he : r.entries[i]? = some e)
    (he' : r.entries[j]? = some e') {lo hi : ℝ} (hlo : e.marginal.support.1 = .real lo)
    (hhi : e'.marginal.support.2 = .real hi) (hlt : hi < lo) (values : List Exact) :
    ¬ r.Admits values := by
  intro h
  obtain ⟨hfirst, -⟩ := h.supports i e he
  obtain ⟨-, hsecond⟩ := h.supports j e' he'
  have hstep := (Chain.holds_iff.mp (List.all_eq_true.mp h.ordered c hc) i j hpair).1
  rw [hlo] at hfirst
  rw [hhi] at hsecond
  rw [Exact.zero_eq] at hstep
  generalize Chain.valueAt values i = x at hfirst hstep
  generalize Chain.valueAt values j = y at hsecond hstep
  cases x <;> cases y <;>
    first
      | exact hfirst.elim
      | exact hsecond.elim
      | exact hstep.elim
      | skip
  next x y =>
    rw [Exact.real_sub_real, Exact.real_le_real] at hstep
    rw [Exact.real_le_real] at hfirst hsecond
    linarith

/-- What a draw gives is admitted. -/
theorem FirstOrdered.admits {block : Nat} (h : r.FirstOrdered draws block)
    (hproper : r.IsProper) (hsortable : Sortable r.size r.chains)
    (hdraws : ∀ i, 0.0 ≤ draws.value i ∧ draws.value i < 1.0) :
    r.Admits (r.outcome draws block) where
  length := length_outcome r draws block
  ordered := h.ordered
  supports _ _ he := supports_outcome hproper hsortable hdraws block he

end

/-- A prior that was built, in which distributions were overwritten by proper ones, any number of
them.  A draw gives the values of the first block of random numbers that keep the order, if there is
one among as many blocks as there are attempts; it fails exactly if there is none.  The values are
in the intervals of the distributions at their places, so the density there is not zero. -/
theorem drawValues_supported (m : Model) (channels : List Channel) {b : Bounds Exact}
    (hb : b.validate = .ok ()) {ds : List (String × Marginal Exact)}
    (hds : ∀ change ∈ ds, change.2.IsProper) {attempts : Nat} (hattempts : 0 < attempts)
    (draws : Draws Exact) (hdraws : ∀ i, 0.0 ≤ draws.value i ∧ draws.value i < 1.0) :
    ∃ r r', build? m channels b = some (.ok r) ∧
      (r.overwriteEach ds).withAttempts? attempts = some r' ∧
      (∀ values rest, r'.drawValues draws = (.ok values, rest) ↔
        ∃ k < attempts, r'.FirstOrdered draws k ∧ values = r'.outcome draws k ∧
          rest = r'.skip draws (k + 1)) ∧
      (∀ values rest, r'.drawValues draws = (.ok values, rest) →
        r'.Admits values ∧ ∃ x, r'.logOfValues? values = some x ∧ negInfinity < x) ∧
      ∀ e rest, r'.drawValues draws = (.error e, rest) ↔
        (∀ k < attempts, r'.ordered (r'.outcome draws k) = false) ∧
          e = .rejectionLimit attempts ∧ rest = r'.skip draws attempts := by
  obtain ⟨r, hr⟩ := exists_build? hb m channels
  let r' : Prior Exact := { r.overwriteEach ds with attempts, attempts_pos := hattempts }
  have hr' : (r.overwriteEach ds).withAttempts? attempts = some r' := dif_pos hattempts
  have hkept : Kept r r' := (overwriteEach_kept r ds).trans (withAttempts?_kept hr')
  have hproper : r'.IsProper := (isProper_of_build? hb hr).overwriteEach hds
  have hsortable : Sortable r'.size r'.chains := by
    rw [hkept.size, hkept.chains]
    exact sortable_of_build? hr
  refine ⟨r, r', hr, hr', fun _ _ => drawValues_eq_ok_iff, fun values rest h => ?_,
    fun _ _ => drawValues_eq_error_iff⟩
  obtain ⟨k, -, hfirst, rfl, -⟩ := drawValues_eq_ok_iff.mp h
  have hadmits := hfirst.admits hproper hsortable hdraws
  exact ⟨hadmits, hadmits.exists_logOfValues? hproper⟩

/-- The starts of two pulses in intervals of which the first lies after the second: fifty attempts
fail. -/
theorem drawValues_supported_GG :
    ∃ late early r r', Marginal.uniform? (Exact.real 6) (.real 10) = some late ∧
      Marginal.uniform? (Exact.real 0) (.real 5) = some early ∧
      build? ⟨false, [⟨.gaussian, none⟩, ⟨.gaussian, none⟩], none⟩ [.a] tenBounds = some (.ok r) ∧
      (r.overwriteEach [("start_1_a", late), ("start_2_a", early)]).withAttempts? 50 = some r' ∧
      r'.drawValues lateNinth = (.error (.rejectionLimit 50), r'.skip lateNinth 50) := by
  have hlt : (6 : ℝ) < 10 := by norm_num
  have hlt' : (0 : ℝ) < 5 := by norm_num
  obtain ⟨late, hlate⟩ :=
    Marginal.exists_uniform (Exact.isFinite_real 6) (Exact.isFinite_real 10) hlt.le
  obtain ⟨early, hearly⟩ :=
    Marginal.exists_uniform (Exact.isFinite_real 0) (Exact.isFinite_real 5) hlt'.le
  have hds : ∀ change ∈ [("start_1_a", late), ("start_2_a", early)], change.2.IsProper := by
    simp only [List.forall_mem_cons]
    exact ⟨.uniform hlt hlate, .uniform hlt' hearly, nofun⟩
  have hattempts : 0 < 50 := by decide
  obtain ⟨r, r', hr, hr', -, hok, herror⟩ := drawValues_supported
    ⟨false, [⟨.gaussian, none⟩, ⟨.gaussian, none⟩], none⟩ [.a] validate_tenBounds hds
    hattempts lateNinth lateNinth_value
  refine ⟨late, early, r, r', hlate, hearly, hr, hr', ?_⟩
  have hkeys := keys_of_build? hr
  have hkept := (overwriteEach_kept r _).trans (withAttempts?_kept hr')
  have hplaces : (r.entries.map (·.key)).idxOf (.shape .start 1 .a) = 1 ∧
      (r.entries.map (·.key)).idxOf (.shape .start 2 .a) = 2 := by
    rw [hkeys]
    decide
  have hmem : .shape .start 1 .a ∈ r.entries.map (·.key) ∧
      .shape .start 2 .a ∈ r.entries.map (·.key) := by
    rw [hkeys]
    decide
  have hname : Key.parse "start_1_a" = .ok (.shape .start 1 .a) := rfl
  have hname' : Key.parse "start_2_a" = .ok (.shape .start 2 .a) := rfl
  have hentries := getElem?_overwriteEach_pair hname hname' (by decide) hmem.1 hmem.2 late early
  rw [hplaces.1, hplaces.2, ← entries_of_withAttempts? hr'] at hentries
  obtain ⟨c, hc, hmembers⟩ :=
    exists_chain_of_build? (q := .start) hr (List.mem_singleton_self Channel.a) (by decide)
  cases hdraw : r'.drawValues lateNinth with
  | mk result rest =>
    cases result with
    | error e =>
      obtain ⟨-, rfl, rfl⟩ := (herror e rest).mp hdraw
      rfl
    | ok values =>
      have hpair : (1, 2) ∈ Chain.pairs c.members := by
        rw [hmembers]
        decide
      have hc' : c ∈ r'.chains := by
        rw [hkept.chains]
        exact hc
      have hlo := congrArg Prod.fst (Marginal.support_of_uniform? hlate)
      have hhi := congrArg Prod.snd (Marginal.support_of_uniform? hearly)
      exact absurd (hok values rest hdraw).1
        (not_admits hc' hpair hentries.1 hentries.2 hlo hhi (by norm_num) values)

end Prior

end PulseFit
