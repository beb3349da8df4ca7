import ActiveSet.Proofs.OneVariable

/-!
# The worst multiplier

The scan for the inequality that leaves finds the first of the greatest positive multipliers, over
any scalars whose numbers are linearly ordered. It reads nothing but the multipliers of active
inequalities, so nothing else can change what it finds.
-/

namespace ActiveSet

namespace LeavingRule

variable {K : Type} {duals : Point K}

/-- Where a vector, if there is one, starts with some entry, a multiplier is missing or read. -/
theorem multiplier_of_lookup {P : K → Prop} {k : Key}
    (h : ∀ v, duals.lookup k = some v → ∃ a rest, v = a :: rest ∧ P a) :
    k ∉ duals.keys ∧ Point.multiplier duals k = .error (.missingKey k) ∨
      k ∈ duals.keys ∧ ∃ a, Point.multiplier duals k = .ok a ∧ P a := by
  cases hk : duals.lookup k with
  | none =>
      refine .inl ⟨(Keyed.lookup_eq_none_iff duals).1 hk, ?_⟩
      rw [Point.multiplier, Keyed.get, hk]
      rfl
  | some v =>
      obtain ⟨a, rest, rfl, ha⟩ := h v hk
      exact .inr ⟨(Keyed.mem_keys_iff duals).2 ⟨_, hk⟩, a, multiplier_eq_ok.2 ⟨rest, hk⟩, ha⟩

variable [Scalar K] {w : WorkingSet K}

/-- The active inequality at a position is the first that has the greatest of the multipliers. -/
def FirstGreatest (w : WorkingSet K) (duals : Point K) (i : Nat) : Prop :=
  ∃ f a, (f, i) ∈ w.flagged true ∧ Point.multiplier duals f.dual = .ok a ∧
    ∀ e ∈ w.flagged true, ∃ b, Point.multiplier duals e.1.dual = .ok b ∧ b ≤ a ∧ (a ≤ b → i ≤ e.2)

/-- A scan that ends at an inequality ends at the first of the greatest multipliers. -/
theorem firstGreatest_of_foldlM (hK : Scalar.OrderLaws K)
    (h : ∀ e ∈ w.flagged true, ∃ a, Point.multiplier duals e.1.dual = .ok a ∧
      Scalar.isNaN a = false)
    {a : K} {i : Nat} (hscan : (w.flagged true).foldlM (worse duals) none = .ok (some (a, i))) :
    FirstGreatest w duals i := by
  obtain ⟨_, hall, hfrom⟩ := foldlM_worse hK hscan
  obtain ⟨front, ⟨f, j⟩, back, c, hsplit, hc, hpos, hr, hfront⟩ := hfrom.resolve_left (by simp)
  obtain ⟨rfl, rfl⟩ := Prod.mk.inj (Option.some.inj hr)
  have hmem : (f, i) ∈ w.flagged true := hsplit ▸ List.mem_append_right _ (.head _)
  refine ⟨f, a, hmem, hc, fun e he => ?_⟩
  obtain ⟨b, hb, hnumber⟩ := h e he
  obtain ⟨b', hb', hle⟩ := hall e he
  cases hb.symm.trans hb'
  refine ⟨b, hb, hK.le_of_not_lt hnumber (hK.lt_number _ _ hpos).2 hle, fun hab => ?_⟩
  have hordered := w.pairwise_flagged true
  rw [hsplit] at he hordered
  rcases List.mem_append.1 he with he | he
  · exact absurd hab (hfront e he b hb)
  · rcases List.mem_cons.1 he with rfl | he
    · exact le_rfl
    · exact (List.rel_of_pairwise_cons (List.pairwise_append.1 hordered).2.1 he).le

/-- Where every active inequality has a number for its multiplier, the rule answers. -/
theorem largestMultiplier_of_numbers (hK : Scalar.OrderLaws K)
    (h : ∀ e ∈ w.flagged true, ∃ a, Point.multiplier duals e.1.dual = .ok a ∧
      Scalar.isNaN a = false) :
    ∃ leaving, largestMultiplier w duals = .ok leaving ∧
      (leaving = none ↔ ∀ e ∈ w.flagged true, ∃ a, Point.multiplier duals e.1.dual = .ok a ∧
        a ≤ 0) ∧
      ∀ i, leaving = some i → FirstGreatest w duals i := by
  cases hscan : (w.flagged true).foldlM (worse duals) none with
  | error fault =>
      have hfault : largestMultiplier w duals = .error fault := by
        rw [largestMultiplier, hscan]
        rfl
      obtain ⟨e, he, herror⟩ := largestMultiplier_eq_error hfault
      obtain ⟨a, ha, _⟩ := h e he
      cases herror.symm.trans ha
  | ok r =>
      obtain ⟨_, hall, hfrom⟩ := foldlM_worse hK hscan
      refine ⟨r.map (·.2), by rw [largestMultiplier, hscan, ok_bind, pure_eq_ok], ⟨?_, ?_⟩, ?_⟩
      · intro hr e he
        obtain rfl := Option.map_eq_none_iff.1 hr
        obtain ⟨a, ha, hnumber⟩ := h e he
        obtain ⟨a', ha', hle⟩ := hall e he
        cases ha.symm.trans ha'
        exact ⟨a, ha, hK.le_of_not_lt hnumber hK.zero hle⟩
      · intro hle
        rcases hfrom with rfl | ⟨front, e, back, a, hsplit, ha, hpos, _⟩
        · rfl
        · obtain ⟨a', ha', hle⟩ := hle e (hsplit ▸ List.mem_append_right _ (.head _))
          cases ha.symm.trans ha'
          exact absurd hpos ((hK.le_iff a 0).1 hle).2.2
      · intro i hr
        obtain ⟨⟨a, j⟩, rfl, rfl⟩ := Option.map_eq_some_iff.1 hr
        exact firstGreatest_of_foldlM hK h hscan

/--
Over multipliers that start with a number wherever there is one, the rule names a missing multiplier
exactly if an active inequality has none; otherwise nothing leaves exactly if no active multiplier
is positive, and what leaves is the first active inequality with the greatest multiplier. Inactive
inequalities and multipliers of anything else do not count.
-/
theorem largestMultiplier_worst (hK : Scalar.OrderLaws K)
    (hfirst : ∀ e ∈ w.flagged true, ∀ v, duals.lookup e.1.dual = some v →
      ∃ a rest, v = a :: rest ∧ Scalar.isNaN a = false) :
    ((∃ k, largestMultiplier w duals = .error (.missingKey k)) ↔
      ∃ e ∈ w.flagged true, e.1.dual ∉ duals.keys) ∧
    ((∀ e ∈ w.flagged true, e.1.dual ∈ duals.keys) →
      ∃ leaving, largestMultiplier w duals = .ok leaving ∧
        (leaving = none ↔ ∀ e ∈ w.flagged true, ∃ a, Point.multiplier duals e.1.dual = .ok a ∧
          a ≤ 0) ∧
        ∀ i, leaving = some i → FirstGreatest w duals i) ∧
    ∀ (w' : WorkingSet K) (duals' : Point K), w'.flagged true = w.flagged true →
      (∀ e ∈ w.flagged true, duals'.lookup e.1.dual = duals.lookup e.1.dual) →
      largestMultiplier w' duals' = largestMultiplier w duals := by
  have hcases := fun e he => multiplier_of_lookup (hfirst e he)
  have hanswers : (∀ e ∈ w.flagged true, e.1.dual ∈ duals.keys) → ∀ e ∈ w.flagged true,
      ∃ a, Point.multiplier duals e.1.dual = .ok a ∧ Scalar.isNaN a = false :=
    fun hkeys e he => ((hcases e he).resolve_left fun hmissing => hmissing.1 (hkeys e he)).2
  refine ⟨⟨?_, ?_⟩, fun hkeys => largestMultiplier_of_numbers hK (hanswers hkeys),
    fun _ _ hw h => largestMultiplier_eq_of_active hw h⟩
  · rintro ⟨k, hmissing⟩
    by_contra hkeys
    push Not at hkeys
    obtain ⟨leaving, hleaving, _⟩ := largestMultiplier_of_numbers hK (hanswers hkeys)
    cases hmissing.symm.trans hleaving
  · rintro ⟨e, he, hmissing⟩
    cases hresult : largestMultiplier w duals with
    | ok leaving =>
        obtain ⟨r, hscan, _⟩ := bind_eq_ok.1 hresult
        obtain ⟨a, ha, _⟩ := (foldlM_worse hK hscan).2.1 e he
        obtain ⟨_, herror⟩ := (hcases e he).resolve_right fun hheld => hmissing hheld.1
        cases ha.symm.trans herror
    | error fault =>
        obtain ⟨g, hg, hfault⟩ := largestMultiplier_eq_error hresult
        obtain ⟨_, herror⟩ | ⟨_, a, ha, _⟩ := hcases g hg
        · exact ⟨g.1.dual, congrArg _ (Except.error.inj (hfault.symm.trans herror))⟩
        · cases hfault.symm.trans ha

end LeavingRule

namespace OneVariable

/-- Four inequalities, all of them active but the third. -/
def thirdIdle : WorkingSet ℝ :=
  ⟨[atMost 1 0 0, atMost 1 0 1, atMost 1 0 2, atMost 1 0 3], [true, true, false, true], rfl⟩

theorem flagged_thirdIdle : thirdIdle.flagged true =
    [(atMost 1 0 0, 0), (atMost 1 0 1, 1), (atMost 1 0 3, 3)] := rfl

/-- The second and the fourth multiplier tie. -/
def tied (first twice third : ℝ) : Point ℝ :=
  Keyed.ofList [(.number 0, [first]), (.number 1, [twice]), (.number 2, [third]),
    (.number 3, [twice])]

theorem largestMultiplier_worst_tied :
    Scalar.OrderLaws ℝ ∧
    (∀ e ∈ thirdIdle.flagged true, ∀ v, (tied 1 3 9).lookup e.1.dual = some v →
      ∃ a rest, v = a :: rest ∧ Scalar.isNaN a = false) ∧
    LeavingRule.largestMultiplier thirdIdle (tied 1 3 9) = .ok (some 1) ∧
    ∃ k, LeavingRule.largestMultiplier thirdIdle .empty = .error (.missingKey k) := by
  have hfirst : ∀ e ∈ thirdIdle.flagged true, ∀ v, (tied 1 3 9).lookup e.1.dual = some v →
      ∃ a rest, v = a :: rest ∧ Scalar.isNaN a = false := by
    intro e _ v hv
    have hmem := Keyed.mem_of_lookup_ofList hv
    simp only [List.mem_cons, Prod.mk.injEq, List.not_mem_nil, or_false] at hmem
    obtain ⟨_, rfl⟩ | ⟨_, rfl⟩ | ⟨_, rfl⟩ | ⟨_, rfl⟩ := hmem <;> exact ⟨_, _, rfl, rfl⟩
  obtain ⟨_, hanswer, _⟩ := LeavingRule.largestMultiplier_worst Scalar.orderLaws_real hfirst
  have hnothing : ∀ e ∈ thirdIdle.flagged true, ∀ v,
      (Keyed.empty : Point ℝ).lookup e.1.dual = some v →
      ∃ a rest, v = a :: rest ∧ Scalar.isNaN a = false := fun _ _ _ h => by cases h
  obtain ⟨hmissing, _⟩ := LeavingRule.largestMultiplier_worst Scalar.orderLaws_real hnothing
  refine ⟨Scalar.orderLaws_real, hfirst, ?_, hmissing.2 ⟨_, .head _, by decide⟩⟩
  obtain ⟨leaving, hleaving, hnone, hsome⟩ := hanswer (by decide)
  rw [hleaving]
  rcases leaving with _ | i
  · obtain ⟨a, ha, hle⟩ := hnone.1 rfl _ (.head _)
    obtain rfl : 1 = a := Except.ok.inj ha
    norm_num at hle
  · obtain ⟨f, a, hf, ha, hgreatest⟩ := hsome i rfl
    obtain ⟨b, hb, hba, hlowest⟩ := hgreatest (atMost 1 0 1, 1) (.tail _ (.head _))
    obtain rfl : 3 = b := Except.ok.inj hb
    rw [flagged_thirdIdle] at hf
    rcases hf with _ | ⟨_, _ | ⟨_, _ | ⟨_, hf⟩⟩⟩
    · obtain rfl : 1 = a := Except.ok.inj ha
      norm_num at hba
    · rfl
    · obtain rfl : 3 = a := Except.ok.inj ha
      exact absurd (hlowest le_rfl) (by decide)
    · cases hf

end OneVariable

end ActiveSet
