import Mathlib.Analysis.Real.Sqrt
import Mathlib.Data.List.Sort
import ActiveSet.Proofs.Factors
import ActiveSet.WorkingSet.Blocking
import ActiveSet.WorkingSet.Leaving

/-!
# Working sets, the blocking and the leaving inequality

Changing one flag changes the enforced inequalities by one. The blocking inequality is the first that
a step meets, and the leaving one has the largest multiplier.
-/

namespace ActiveSet

namespace WorkingSet

variable {K : Type}

/-! ## Flags -/

theorem mem_flagged {w : WorkingSet K} {b : Bool} {e : Inequality K × Nat} :
    e ∈ w.flagged b ↔ w.factors[e.2]? = some e.1 ∧ w.active[e.2]? = some b := by
  obtain ⟨f, i⟩ := e
  simp only [flagged, numbered, List.mem_map, List.mem_filter, decide_eq_true_eq, Prod.exists,
    Prod.mk.injEq, List.mem_zipIdx_iff_getElem?, List.getElem?_zip_eq_some]
  constructor
  · rintro ⟨f, c, i, ⟨⟨hf, hc⟩, rfl⟩, rfl, rfl⟩
    exact ⟨hf, hc⟩
  · rintro ⟨hf, hb⟩
    exact ⟨f, b, i, ⟨⟨hf, hb⟩, rfl⟩, rfl, rfl⟩

/-- A position holds one inequality. -/
theorem eq_of_mem_flagged {w : WorkingSet K} {b c : Bool} {f g : Inequality K} {i : Nat}
    (hf : (f, i) ∈ w.flagged b) (hg : (g, i) ∈ w.flagged c) : f = g :=
  Option.some.inj ((mem_flagged.1 hf).1.symm.trans (mem_flagged.1 hg).1)

theorem mem_flagged_of_numbered {w : WorkingSet K} {f : Inequality K} {b : Bool} {i : Nat}
    (h : ((f, b), i) ∈ w.numbered) : (f, i) ∈ w.flagged b :=
  List.mem_map_of_mem (f := fun e : (Inequality K × Bool) × Nat => (e.1.1, e.2))
    (List.mem_filter.2 ⟨h, decide_eq_true rfl⟩)

theorem mem_factors_of_flagged {w : WorkingSet K} {b : Bool} {e : Inequality K × Nat}
    (h : e ∈ w.flagged b) : e.1 ∈ w.factors :=
  List.mem_of_getElem? (mem_flagged.1 h).1

/-- Over distinct multiplier keys an inequality has one flag. -/
theorem flag_unique {w : WorkingSet K} (hn : (w.factors.map (·.dual)).Nodup) {b c : Bool}
    {e f : Inequality K × Nat} (he : e ∈ w.flagged b) (hf : f ∈ w.flagged c)
    (hdual : e.1.dual = f.1.dual) : b = c := by
  obtain ⟨hefactor, hb⟩ := mem_flagged.1 he
  obtain ⟨hffactor, hc⟩ := mem_flagged.1 hf
  obtain ⟨hi, hie⟩ := List.getElem?_eq_some_iff.1 hefactor
  obtain ⟨hj, hjf⟩ := List.getElem?_eq_some_iff.1 hffactor
  have hlt : e.2 < (w.factors.map (·.dual)).length := by simpa using hi
  have hlt' : f.2 < (w.factors.map (·.dual)).length := by simpa using hj
  have hmap : (w.factors.map (·.dual))[e.2] = (w.factors.map (·.dual))[f.2] := by
    rw [List.getElem_map, List.getElem_map, hie, hjf, hdual]
  rw [hn.getElem_inj_iff.1 hmap, hc] at hb
  exact (Option.some.inj hb).symm

theorem flagged_getElem {w : WorkingSet K} {i : Nat} (hi : i < w.factors.length) :
    ∃ b, (w.factors[i], i) ∈ w.flagged b := by
  have hactive : i < w.active.length := w.size_eq ▸ hi
  exact ⟨w.active[i], mem_flagged.2
    ⟨List.getElem?_eq_getElem hi, List.getElem?_eq_getElem hactive⟩⟩

theorem flagged_of_mem {w : WorkingSet K} {f : Inequality K} (h : f ∈ w.factors) :
    ∃ i b, (f, i) ∈ w.flagged b := by
  obtain ⟨i, hi, rfl⟩ := List.mem_iff_getElem.1 h
  exact ⟨i, flagged_getElem hi⟩

theorem sublist_flagged (w : WorkingSet K) (b : Bool) :
    ((w.flagged b).map (·.1)).Sublist w.factors := by
  have hall : w.numbered.map (·.1.1) = w.factors := by
    have hzip : (w.numbered.map Prod.fst).map Prod.fst = w.factors := by
      rw [numbered, List.zipIdx_map_fst, List.map_fst_zip]
      exact w.size_eq.ge
    rwa [List.map_map] at hzip
  simp only [flagged, List.map_map, Function.comp_def]
  rw [← hall]
  exact List.filter_sublist.map _

theorem sublist_positions (w : WorkingSet K) (b : Bool) :
    ((w.flagged b).map (·.2)).Sublist (List.range w.factors.length) := by
  have hall : w.numbered.map (·.2) = List.range w.factors.length := by
    rw [numbered, List.zipIdx_map_snd, List.length_zip, w.size_eq, min_self, List.range_eq_range']
  simp only [flagged, List.map_map, Function.comp_def]
  rw [← hall]
  exact List.filter_sublist.map _

/-- The inequalities with one flag come in the order of their positions. -/
theorem pairwise_flagged (w : WorkingSet K) (b : Bool) : (w.flagged b).Pairwise (·.2 < ·.2) :=
  List.pairwise_map.1 (List.pairwise_lt_range.sublist (w.sublist_positions b))

/-- The positions of one flag are picked from all positions. -/
theorem positions_flagged (w : WorkingSet K) (b : Bool) :
    (w.flagged b).map (·.2) = (List.range w.size).filter fun i => w.active[i]? = some b := by
  refine List.Pairwise.eq_of_mem_iff (List.pairwise_map.2 (w.pairwise_flagged b))
    (List.pairwise_lt_range.filter _) fun i => ?_
  simp only [List.mem_map, List.mem_filter, List.mem_range, decide_eq_true_eq]
  constructor
  · rintro ⟨e, he, rfl⟩
    obtain ⟨hfactor, hflag⟩ := mem_flagged.1 he
    exact ⟨(List.getElem?_eq_some_iff.1 hfactor).1, hflag⟩
  · rintro ⟨hi, hflag⟩
    exact ⟨(w.factors[i], i), mem_flagged.2 ⟨List.getElem?_eq_getElem hi, hflag⟩, rfl⟩

private theorem nodup_flagged (w : WorkingSet K) (b : Bool) : (w.flagged b).Nodup :=
  (List.nodup_range.sublist (w.sublist_positions b)).of_map _

/-! ## Signatures -/

theorem mem_activeIndices {w : WorkingSet K} {i : Nat} :
    i ∈ w.activeIndices ↔ w.active[i]? = some true := by
  simp only [activeIndices, List.mem_map]
  constructor
  · rintro ⟨e, he, rfl⟩
    exact (mem_flagged.1 he).2
  · intro h
    have hi : i < w.factors.length := w.size_eq ▸ (List.getElem?_eq_some_iff.1 h).1
    exact ⟨(w.factors[i], i), mem_flagged.2 ⟨List.getElem?_eq_getElem hi, h⟩, rfl⟩

theorem sublist_activeIndices (w : WorkingSet K) :
    w.activeIndices.Sublist (List.range w.factors.length) :=
  w.sublist_positions true

theorem length_activeIndices_le (w : WorkingSet K) : w.activeIndices.length ≤ w.factors.length :=
  w.sublist_activeIndices.length_le.trans_eq List.length_range

/-- There are at most `2 ^ n` different signatures over `n` inequalities. -/
theorem length_signatures_le {n : Nat} {signatures : List (List Nat)} (hnodup : signatures.Nodup)
    (hsub : ∀ σ ∈ signatures, σ.Sublist (List.range n)) : signatures.length ≤ 2 ^ n := by
  have hsubset : signatures ⊆ (List.range n).sublists := fun σ hσ => List.mem_sublists.2 (hsub σ hσ)
  have hle := (hnodup.subperm hsubset).length_le
  rwa [List.length_sublists, List.length_range] at hle

/-- Over equally many inequalities the active indices say which flags are set. -/
theorem activeIndices_eq_iff {w w' : WorkingSet K} (h : w.size = w'.size) :
    w.activeIndices = w'.activeIndices ↔ w.active = w'.active := by
  constructor
  · intro heq
    refine List.ext_getElem ?_ fun i hi hi' => ?_
    · exact w.size_eq.trans (h.trans w'.size_eq.symm)
    · have hiff : w.active[i]? = some true ↔ w'.active[i]? = some true := by
        rw [← mem_activeIndices, ← mem_activeIndices, heq]
      simpa [List.getElem?_eq_getElem hi, List.getElem?_eq_getElem hi', Bool.coe_iff_coe] using hiff
  · intro heq
    rw [activeIndices, activeIndices, positions_flagged, positions_flagged, h, heq]

theorem eq_of_activeIndices {w w' : WorkingSet K} (hf : w.factors = w'.factors)
    (h : w.activeIndices = w'.activeIndices) : w = w' := by
  have hactive := (activeIndices_eq_iff (congrArg List.length hf)).1 h
  obtain ⟨factors, active, hsize⟩ := w
  obtain ⟨factors', active', hsize'⟩ := w'
  obtain rfl : factors = factors' := hf
  obtain rfl : active = active' := hactive
  rfl

/-! ## Changing a flag -/

private theorem place_natCast {n i : Nat} (h : i < n) : Position.place? n (i : Int) = some i := by
  simp [Position.place?, h]

theorem entry_natCast {α : Type} {l : List α} {i : Nat} {a : α} (h : l[i]? = some a) :
    (Position.entry l (i : Int) : Except (Fault K) α) = .ok a := by
  have hi : i < l.length := (List.getElem?_eq_some_iff.1 h).1
  simp [Position.entry, place_natCast hi, h]

theorem change_eq_ok {w : WorkingSet K} {i : Nat} {b : Bool} (h : w.active[i]? = some (!b))
    (already : Refusal K) :
    ∃ w', w.change i b already = .ok w' ∧ w'.factors = w.factors ∧ w'.active = w.active.set i b := by
  have hi : i < w.size := (List.getElem?_eq_some_iff.1 h).1.trans_eq w.size_eq
  simp only [change, place_natCast hi, h]
  cases b <;> exact ⟨_, rfl, rfl, rfl⟩

theorem of_change_eq_ok {w w' : WorkingSet K} {i : Nat} {b : Bool} {already : Refusal K}
    (h : w.change i b already = .ok w') :
    ∃ f, (f, i) ∈ w.flagged (!b) ∧ w'.factors = w.factors ∧ w'.active = w.active.set i b := by
  unfold change at h
  split at h
  · cases h
  · rename_i j hj
    split at h
    · cases h
    · rename_i hne
      obtain rfl := Except.ok.inj h
      have hlt := Position.place?_lt hj
      have hi : i < w.size := by
        unfold Position.place? at hj
        grind
      rw [place_natCast hi, Option.some.injEq] at hj
      subst hj
      refine ⟨w.factors[i], mem_flagged.2 ⟨List.getElem?_eq_getElem hi, ?_⟩, rfl, rfl⟩
      have hi' : i < w.active.length := hi.trans_eq w.size_eq.symm
      rw [List.getElem?_eq_getElem hi'] at hne ⊢
      cases b <;> simp_all

private theorem mem_flagged_set {w w' : WorkingSet K} {f : Inequality K} {i : Nat} {b : Bool}
    (h : (f, i) ∈ w.flagged (!b)) (hf : w'.factors = w.factors)
    (ha : w'.active = w.active.set i b) (c : Bool) (e : Inequality K × Nat) :
    e ∈ w'.flagged c ↔ if e.2 = i then c = b ∧ e.1 = f else e ∈ w.flagged c := by
  rw [mem_flagged] at h ⊢
  rw [hf, ha, List.getElem?_set]
  have hi : i < w.active.length := (List.getElem?_eq_some_iff.1 h.2).1
  by_cases hei : e.2 = i
  · rw [if_pos hei, hei, h.1, if_pos rfl, if_pos hi]
    simp [and_comm, eq_comm]
  · rw [if_neg hei, if_neg (Ne.symm hei), mem_flagged]

/-- Setting a flag puts its inequality among those that have the flag. -/
theorem perm_flagged_set {w w' : WorkingSet K} {f : Inequality K} {i : Nat} {b : Bool}
    (h : (f, i) ∈ w.flagged (!b)) (hf : w'.factors = w.factors)
    (ha : w'.active = w.active.set i b) : (w'.flagged b).Perm ((f, i) :: w.flagged b) := by
  have hne : ∀ e ∈ w.flagged b, e.2 ≠ i := by
    rintro e he rfl
    have := (mem_flagged.1 h).2.symm.trans (mem_flagged.1 he).2
    cases b <;> cases this
  refine (List.perm_ext_iff_of_nodup (w'.nodup_flagged b) ?_).2 fun e => ?_
  · exact List.nodup_cons.2 ⟨fun hm => hne _ hm rfl, w.nodup_flagged b⟩
  · rw [mem_flagged_set h hf ha, List.mem_cons]
    obtain ⟨g, j⟩ := e
    by_cases hj : j = i
    · have : (g, j) ∉ w.flagged b := fun hm => hne _ hm hj
      simp [hj, hj ▸ this]
    · simp [hj]

theorem perm_flagged_unset {w w' : WorkingSet K} {f : Inequality K} {i : Nat} {b : Bool}
    (h : (f, i) ∈ w.flagged b) (hf : w'.factors = w.factors)
    (ha : w'.active = w.active.set i (!b)) : (w.flagged b).Perm ((f, i) :: w'.flagged b) := by
  obtain ⟨hfi, hb⟩ := mem_flagged.1 h
  have hi : i < w.active.length := (List.getElem?_eq_some_iff.1 hb).1
  refine perm_flagged_set (w := w') (mem_flagged.2 ⟨hf ▸ hfi, ?_⟩) hf.symm ?_
  · rw [ha, List.getElem?_set_self hi]
  · rw [ha, List.set_set, ← (List.getElem?_eq_some_iff.1 hb).2, List.set_getElem_self]

/-- What has the other flag after a change had it before. -/
theorem flagged_of_set {w w' : WorkingSet K} {f : Inequality K} {i : Nat} {b : Bool}
    (h : (f, i) ∈ w.flagged (!b)) (hf : w'.factors = w.factors)
    (ha : w'.active = w.active.set i b) {e : Inequality K × Nat} (he : e ∈ w'.flagged (!b)) :
    e ∈ w.flagged (!b) := by
  rw [mem_flagged_set h hf ha] at he
  split at he
  · cases b <;> cases he.1
  · exact he

theorem mem_activeIndices_of_set {w w' : WorkingSet K} {f : Inequality K} {i : Nat} {b : Bool}
    (h : (f, i) ∈ w.flagged (!b)) (ha : w'.active = w.active.set i b) {j : Nat} :
    j ∈ w'.activeIndices ↔ if j = i then b = true else j ∈ w.activeIndices := by
  have hi : i < w.active.length := (List.getElem?_eq_some_iff.1 (mem_flagged.1 h).2).1
  rw [mem_activeIndices, mem_activeIndices, ha, List.getElem?_set]
  split
  · rename_i hij
    rw [if_pos hij.symm, Option.some.injEq]
  · rename_i hij
    rw [if_neg (Ne.symm hij)]

theorem mem_asEqualities [Scalar K] {w : WorkingSet K} {c : Equality K} :
    c ∈ w.asEqualities ↔ ∃ e ∈ w.flagged true, e.1.toEquality = c := by
  simp only [asEqualities, List.mem_map]

end WorkingSet

/-! ## The blocking inequality -/

namespace Cap

theorem exceeds_of_stricter {cap : Cap ℝ} {known : Option (ℝ × Nat)} {a b : ℝ}
    (ha : (cap.stricter known).exceeds a = true) (hb : b < a) :
    (cap.stricter known).exceeds b = true := by
  unfold exceeds at ha ⊢
  split at ha
  · exact decide_eq_true (hb.trans (of_decide_eq_true ha))
  · simp

variable {K : Type} [Scalar K]

/-- A length that ends before a cap is a number. -/
theorem isNaN_of_exceeds (hK : Scalar.StepLaws K) {cap : Cap K} {a : K}
    (h : cap.exceeds a = true) : Scalar.isNaN a = false := by
  unfold exceeds at h
  split at h
  · exact (hK.lt_number _ _ (of_decide_eq_true h)).1
  · rcases Bool.or_eq_true_iff.1 h with hfinite | hneg
    · exact hK.finite_number _ hfinite
    · exact (hK.lt_number _ _ (of_decide_eq_true hneg)).1

end Cap

namespace WorkingSet

section Numbers

variable {K : Type} [Scalar K] {cap : Cap K} {x p : Point K}

private theorem block_known {known r : Option (K × Nat)} {e : Inequality K × Nat}
    (h : block cap x p known e = .ok r) :
    r = known ∨ ∃ a, (cap.stricter known).exceeds a = true ∧ r = some (a, e.2) := by
  simp only [block, bind_eq_ok] at h
  obtain ⟨slope, _, h⟩ := h
  split at h
  · exact .inl (pure_eq_ok.1 h).symm
  · simp only [bind_eq_ok, pure_eq_ok] at h
    obtain ⟨value, _, h⟩ := h
    split at h
    · exact .inr ⟨_, ‹_›, h.symm⟩
    · exact .inl h.symm

private theorem isNaN_of_foldlM_block (hK : Scalar.StepLaws K) {l : List (Inequality K × Nat)}
    {known : Option (K × Nat)} (hknown : ∀ a i, known = some (a, i) → Scalar.isNaN a = false)
    {a : K} {i : Nat} (h : l.foldlM (block cap x p) known = .ok (some (a, i))) :
    Scalar.isNaN a = false := by
  induction l generalizing known with
  | nil => exact hknown a i (pure_eq_ok.1 h)
  | cons e l ih =>
      rw [List.foldlM_cons, bind_eq_ok] at h
      obtain ⟨next, hnext, h⟩ := h
      refine ih (fun b j hb => ?_) h
      rcases block_known hnext with rfl | ⟨c, hc, rfl⟩
      · exact hknown b j hb
      · cases hb
        exact Cap.isNaN_of_exceeds hK hc

/-- What blocks does so at a number, whatever the others have come to. -/
theorem isNaN_of_blocking (hK : Scalar.StepLaws K) {w : WorkingSet K} {a : K} {i : Nat}
    (h : w.blocking x p cap = .ok (some (a, i))) : Scalar.isNaN a = false :=
  isNaN_of_foldlM_block hK (by simp) h

end Numbers

/-- How far an inequality lets a step go along a direction in which it rises. -/
noncomputable def ratio (f : Inequality ℝ) (x p : Point ℝ) : ℝ := (f.bound - f.value x) / f.value p

private theorem block_eq_ok {cap : Cap ℝ} {x p : Point ℝ} {known r : Option (ℝ × Nat)}
    {e : Inequality ℝ × Nat} (h : block cap x p known e = .ok r) :
    (e.1.value p ≤ 0 ∧ r = known) ∨
      (0 < e.1.value p ∧ ((cap.stricter known).exceeds (ratio e.1 x p) = true ∧
          r = some (ratio e.1 x p, e.2) ∨
        (cap.stricter known).exceeds (ratio e.1 x p) = false ∧ r = known)) := by
  simp only [block, bind_eq_ok, Inequality.product_eq_ok] at h
  obtain ⟨_, ⟨_, rfl⟩, h⟩ := h
  split at h
  · rename_i hle
    exact .inl ⟨hle, (pure_eq_ok.1 h).symm⟩
  · rename_i hlt
    simp only [bind_eq_ok, Inequality.product_eq_ok, pure_eq_ok] at h
    obtain ⟨_, ⟨_, rfl⟩, h⟩ := h
    refine .inr ⟨not_le.1 hlt, ?_⟩
    split at h
    · exact .inl ⟨‹_›, h.symm⟩
    · exact .inr ⟨eq_false_of_ne_true ‹_›, h.symm⟩

private theorem foldlM_block {cap : Cap ℝ} {x p : Point ℝ} {l : List (Inequality ℝ × Nat)}
    {known r : Option (ℝ × Nat)} (h : l.foldlM (block cap x p) known = .ok r) :
    (∀ e ∈ l, 0 < e.1.value p → (cap.stricter r).exceeds (ratio e.1 x p) = false) ∧
      (r = known ∨ ∃ e ∈ l, 0 < e.1.value p ∧ r = some (ratio e.1 x p, e.2) ∧
        (cap.stricter known).exceeds (ratio e.1 x p) = true) := by
  induction l generalizing known with
  | nil => exact ⟨by simp, .inl (pure_eq_ok.1 h).symm⟩
  | cons e l ih =>
      rw [List.foldlM_cons, bind_eq_ok] at h
      obtain ⟨next, hnext, h⟩ := h
      obtain ⟨hall, hfrom⟩ := ih h
      -- The cap after the rest is at most the cap after the first inequality.
      have hmono : ∀ a, (cap.stricter next).exceeds a = false →
          (cap.stricter r).exceeds a = false := by
        intro a ha
        rcases hfrom with rfl | ⟨g, _, _, rfl, hg⟩
        · exact ha
        · simp only [Cap.stricter, Cap.exceeds, decide_eq_false_iff_not, not_lt]
          by_contra hlt
          rw [Cap.exceeds_of_stricter hg (not_le.1 hlt)] at ha
          cases ha
      rcases block_eq_ok hnext with ⟨hle, rfl⟩ | ⟨hpos, ⟨hex, rfl⟩ | ⟨hex, rfl⟩⟩
      · refine ⟨fun g hg hgp => ?_, hfrom.imp_right ?_⟩
        · rcases List.mem_cons.1 hg with rfl | hg
          · exact absurd hgp (not_lt.2 hle)
          · exact hall g hg hgp
        · rintro ⟨g, hg, h⟩
          exact ⟨g, .tail _ hg, h⟩
      · refine ⟨fun g hg hgp => ?_, .inr ?_⟩
        · rcases List.mem_cons.1 hg with rfl | hg
          · exact hmono _ (by simp [Cap.stricter, Cap.exceeds])
          · exact hall g hg hgp
        · rcases hfrom with rfl | ⟨g, hg, hgp, rfl, hgex⟩
          · exact ⟨e, .head _, hpos, rfl, hex⟩
          · refine ⟨g, .tail _ hg, hgp, rfl, ?_⟩
            exact Cap.exceeds_of_stricter hex (by simpa [Cap.stricter, Cap.exceeds] using hgex)
      · refine ⟨fun g hg hgp => ?_, hfrom.imp_right ?_⟩
        · rcases List.mem_cons.1 hg with rfl | hg
          · exact hmono _ hex
          · exact hall g hg hgp
        · rintro ⟨g, hg, h⟩
          exact ⟨g, .tail _ hg, h⟩

/-- A later inequality that is met at the same length does not take over. -/
private theorem lt_ratio_of_foldlM_block {cap : Cap ℝ} {x p : Point ℝ}
    {l : List (Inequality ℝ × Nat)} (hl : l.Pairwise (·.2 < ·.2)) {known : Option (ℝ × Nat)} {a : ℝ}
    {i : Nat} (h : l.foldlM (block cap x p) known = .ok (some (a, i))) :
    some (a, i) = known ∨ (cap.stricter known).exceeds a = true ∧
      ∀ e ∈ l, e.2 < i → 0 < e.1.value p → a < ratio e.1 x p := by
  induction l generalizing known with
  | nil => exact .inl (pure_eq_ok.1 h).symm
  | cons e l ih =>
      rw [List.foldlM_cons, bind_eq_ok] at h
      obtain ⟨next, hnext, h⟩ := h
      rw [List.pairwise_cons] at hl
      rcases ih hl.2 h with rfl | ⟨hex, hlt⟩
      · rcases block_eq_ok hnext with ⟨_, hnext⟩ | ⟨_, ⟨hex, hnext⟩ | ⟨_, hnext⟩⟩
        · exact .inl hnext
        · cases hnext
          refine .inr ⟨hex, List.forall_mem_cons.2 ⟨fun hself => ?_, fun g hg hbefore => ?_⟩⟩
          · exact absurd hself (lt_irrefl _)
          · exact absurd hbefore (hl.1 g hg).asymm
        · exact .inl hnext
      · rcases block_eq_ok hnext with ⟨hle, rfl⟩ | ⟨_, ⟨hfirst, rfl⟩ | ⟨hfirst, rfl⟩⟩
        · exact .inr ⟨hex, List.forall_mem_cons.2 ⟨fun _ hp => absurd hp (not_lt.2 hle), hlt⟩⟩
        · have hbefore : a < ratio e.1 x p := of_decide_eq_true hex
          refine .inr ⟨Cap.exceeds_of_stricter hfirst hbefore, ?_⟩
          exact List.forall_mem_cons.2 ⟨fun _ _ => hbefore, hlt⟩
        · -- What does not end before the cap is met behind what does.
          have hbefore : a < ratio e.1 x p := by
            by_contra hle
            rcases (not_lt.1 hle).lt_or_eq with hle | heq
            · rw [Cap.exceeds_of_stricter hex hle] at hfirst
              cases hfirst
            · rw [heq, hex] at hfirst
              cases hfirst
          exact .inr ⟨hex, List.forall_mem_cons.2 ⟨fun _ _ => hbefore, hlt⟩⟩

variable {w : WorkingSet ℝ} {x p : Point ℝ} {cap : Cap ℝ}

/-- The direction has been read by every inactive inequality, whichever blocks. -/
theorem fits_of_blocking {r : Option (ℝ × Nat)} (h : w.blocking x p cap = .ok r) :
    ∀ e ∈ w.flagged false, e.1.Fits p := by
  unfold blocking at h
  generalize w.flagged false = l at h
  generalize (none : Option (ℝ × Nat)) = known at h
  induction l generalizing known with
  | nil => exact List.forall_mem_nil _
  | cons e l ih =>
      rw [List.foldlM_cons, bind_eq_ok] at h
      obtain ⟨next, hnext, h⟩ := h
      rw [block, bind_eq_ok] at hnext
      obtain ⟨slope, hslope, _⟩ := hnext
      exact List.forall_mem_cons.2 ⟨(e.1.product_eq_ok.1 hslope).1, ih next h⟩

/-- Where nothing blocks, every inequality that rises is met at the cap or later. -/
theorem blocking_eq_none (h : w.blocking x p cap = .ok none) {e : Inequality ℝ × Nat}
    (he : e ∈ w.flagged false) (hp : 0 < e.1.value p) : cap.exceeds (ratio e.1 x p) = false :=
  (foldlM_block h).1 e he hp

/-- Inequalities that do not rise change nothing. -/
theorem foldlM_block_falling {l : List (Inequality ℝ × Nat)}
    (h : ∀ e ∈ l, e.1.Fits p ∧ e.1.value p ≤ 0) (known : Option (ℝ × Nat)) :
    l.foldlM (block cap x p) known = .ok known := by
  induction l with
  | nil => rfl
  | cons e l ih =>
      obtain ⟨hfits, hle⟩ := h e (.head _)
      rw [List.foldlM_cons, block, e.1.product_eq_ok.2 ⟨hfits, rfl⟩, ok_bind]
      dsimp only
      rw [if_pos hle]
      exact ih fun f hf => h f (.tail _ hf)

theorem blocking_ok_none (h : ∀ e ∈ w.flagged false, e.1.Fits p ∧ e.1.value p ≤ 0) :
    w.blocking x p cap = .ok none :=
  foldlM_block_falling h none

/-- The first inactive inequality blocks if it is met before the cap and no other rises. -/
theorem blocking_ok_some {f : Inequality ℝ} {i : Nat} {l : List (Inequality ℝ × Nat)}
    (hw : w.flagged false = (f, i) :: l) (hx : f.Fits x) (hp : f.Fits p) (hrises : 0 < f.value p)
    (hcap : cap.exceeds (ratio f x p) = true) (hl : ∀ e ∈ l, e.1.Fits p ∧ e.1.value p ≤ 0) :
    w.blocking x p cap = .ok (some (ratio f x p, i)) := by
  have hfirst : block cap x p none (f, i) = .ok (some (ratio f x p, i)) := by
    rw [block, f.product_eq_ok.2 ⟨hp, rfl⟩, ok_bind, if_neg (not_le.2 hrises),
      f.product_eq_ok.2 ⟨hx, rfl⟩, ok_bind]
    exact congrArg Except.ok (if_pos hcap)
  rw [blocking, hw, List.foldlM_cons, hfirst, ok_bind]
  exact foldlM_block_falling hl _

/-- The blocking inequality is inactive, rises, and is met before the cap and before all others. -/
theorem blocking_eq_some {a : ℝ} {i : Nat} (h : w.blocking x p cap = .ok (some (a, i))) :
    ∃ f, (f, i) ∈ w.flagged false ∧ 0 < f.value p ∧ a = ratio f x p ∧ cap.exceeds a = true ∧
      ∀ e ∈ w.flagged false, 0 < e.1.value p → a ≤ ratio e.1 x p := by
  obtain ⟨hall, hfrom⟩ := foldlM_block h
  rcases hfrom with h | ⟨⟨f, j⟩, hf, hpos, h, hex⟩
  · cases h
  · cases h
    exact ⟨f, hf, hpos, rfl, hex, fun e he hp => by
      simpa [Cap.stricter, Cap.exceeds] using hall e he hp⟩

/-- Of several inequalities that are met at one length the first blocks. -/
theorem lt_ratio_of_blocking {a : ℝ} {i : Nat} (h : w.blocking x p cap = .ok (some (a, i)))
    {e : Inequality ℝ × Nat} (he : e ∈ w.flagged false) (hbefore : e.2 < i) (hp : 0 < e.1.value p) :
    a < ratio e.1 x p := by
  rcases lt_ratio_of_foldlM_block (w.pairwise_flagged false) h with hstart | ⟨_, hlt⟩
  · cases hstart
  · exact hlt e he hbefore hp

theorem blocking_ok (hx : ∀ e ∈ w.flagged false, e.1.Fits x)
    (hp : ∀ e ∈ w.flagged false, e.1.Fits p) (cap : Cap ℝ) : ∃ r, w.blocking x p cap = .ok r := by
  cases hresult : w.blocking x p cap with
  | ok r => exact ⟨r, rfl⟩
  | error fault =>
      obtain ⟨e, he, known, hfault⟩ := foldlM_eq_error hresult
      have hproduct : ∀ y, e.1.Fits y → e.1.product y = .ok (e.1.value y) := fun y hy =>
        e.1.product_eq_ok.2 ⟨hy, rfl⟩
      rw [block, hproduct p (hp e he), ok_bind] at hfault
      split at hfault
      · cases hfault
      · rw [hproduct x (hx e he)] at hfault
        cases hfault

theorem blocking_eq_error {e : Fault ℝ} (h : w.blocking x p cap = .error e) :
    ∃ c, e = .dimension c := by
  obtain ⟨f, _, known, h⟩ := foldlM_eq_error h
  simp only [block, bind_eq_error] at h
  rcases h with h | ⟨slope, _, h⟩
  · exact Inequality.product_eq_error h
  · split at h
    · cases h
    · simp only [bind_eq_error, pure_ne_error, and_false, exists_false, or_false] at h
      exact Inequality.product_eq_error h

end WorkingSet

/-! ## The leaving inequality -/

namespace LeavingRule

section Scan

variable {K : Type} {duals : Point K}

theorem multiplier_eq_ok {k : Key} {a : K} :
    Point.multiplier duals k = .ok a ↔ ∃ rest, duals.lookup k = some (a :: rest) := by
  simp only [Point.multiplier, bind_eq_ok, Keyed.get_eq_ok_iff]
  constructor
  · rintro ⟨v, hv, h⟩
    split at h
    · cases h
    · obtain rfl := pure_eq_ok.1 h
      exact ⟨_, hv⟩
  · rintro ⟨rest, h⟩
    exact ⟨_, h, rfl⟩

variable [Scalar K]

/-- The multiplier of the worst inequality known so far, zero without one. -/
def known : Option (K × Nat) → K
  | some (a, _) => a
  | none => 0

private theorem worse_eq_ok {worst r : Option (K × Nat)} {e : Inequality K × Nat}
    (h : worse duals worst e = .ok r) : ∃ a, Point.multiplier duals e.1.dual = .ok a ∧
      (known worst < a ∧ r = some (a, e.2) ∨ ¬known worst < a ∧ r = worst) := by
  simp only [worse, bind_eq_ok, pure_eq_ok] at h
  obtain ⟨a, ha, h⟩ := h
  have hif : r = if known worst < a then some (a, e.2) else worst := by
    rw [← h]
    cases worst <;> exact if_congr Iff.rfl rfl rfl
  refine ⟨a, ha, ?_⟩
  split at hif
  · exact .inl ⟨‹_›, hif⟩
  · exact .inr ⟨‹_›, hif⟩

/--
No multiplier of a scan is above the one that is known in the end, and that one is the first of its
size: those in front of it are smaller.
-/
theorem foldlM_worse (hK : Scalar.OrderLaws K) {l : List (Inequality K × Nat)}
    {worst r : Option (K × Nat)} (h : l.foldlM (worse duals) worst = .ok r) :
    (∀ c, known r < c → known worst < c) ∧
      (∀ e ∈ l, ∃ a, Point.multiplier duals e.1.dual = .ok a ∧ ¬known r < a) ∧
      (r = worst ∨ ∃ front e back a, l = front ++ e :: back ∧
        Point.multiplier duals e.1.dual = .ok a ∧ known worst < a ∧ r = some (a, e.2) ∧
        ∀ g ∈ front, ∀ b, Point.multiplier duals g.1.dual = .ok b → ¬a ≤ b) := by
  induction l generalizing worst with
  | nil =>
      obtain rfl := pure_eq_ok.1 h
      exact ⟨fun _ => id, by simp, .inl rfl⟩
  | cons e l ih =>
      simp only [List.foldlM_cons, bind_eq_ok] at h
      obtain ⟨next, hnext, h⟩ := h
      obtain ⟨hrises, hall, hfrom⟩ := ih h
      obtain ⟨a, ha, hnext⟩ := worse_eq_ok hnext
      have hbounds : ¬known next < a := by
        rcases hnext with ⟨_, rfl⟩ | ⟨hlt, rfl⟩
        · exact fun haa => hK.lt_asymm a a haa haa
        · exact hlt
      -- What is known only rises, so whatever is above the next value is above this one.
      have hstep : ∀ c, known next < c → known worst < c := by
        rcases hnext with ⟨hlt, rfl⟩ | ⟨_, rfl⟩
        · exact fun c hc => hK.lt_of_lt_of_le hlt (hK.le_of_lt hc)
        · exact fun _ => id
      refine ⟨fun c hc => hstep c (hrises c hc), ?_, ?_⟩
      · exact List.forall_mem_cons.2 ⟨⟨a, ha, fun hlt => hbounds (hrises a hlt)⟩, hall⟩
      · rcases hfrom with rfl | ⟨front, g, back, b, rfl, hb, hlt, hr, hfront⟩
        · rcases hnext with ⟨hlt, rfl⟩ | ⟨_, rfl⟩
          · exact .inr ⟨[], e, l, a, rfl, ha, hlt, rfl, by simp⟩
          · exact .inl rfl
        · refine .inr ⟨e :: front, g, back, b, rfl, hb, hstep b hlt, hr, ?_⟩
          refine List.forall_mem_cons.2 ⟨fun c hc hle => ?_, hfront⟩
          cases ha.symm.trans hc
          exact hbounds (hK.lt_of_lt_of_le hlt hle)

/-- The rule looks at the multipliers of active inequalities and at nothing else. -/
theorem largestMultiplier_eq_of_active {w w' : WorkingSet K} {duals' : Point K}
    (hw : w'.flagged true = w.flagged true)
    (h : ∀ e ∈ w.flagged true, duals'.lookup e.1.dual = duals.lookup e.1.dual) :
    largestMultiplier w' duals' = largestMultiplier w duals := by
  have hworse : ∀ e ∈ w.flagged true, ∀ worst, worse duals' worst e = worse duals worst e := by
    intro e he worst
    simp only [worse, Point.multiplier, Keyed.get, h e he]
  rw [largestMultiplier, largestMultiplier, hw, foldlM_congr hworse]

/-- A rule that answers has found a multiplier of every active inequality. -/
theorem multiplier_of_largestMultiplier {w : WorkingSet K} {leaving : Option Nat}
    (h : largestMultiplier w duals = .ok leaving) {e : Inequality K × Nat}
    (he : e ∈ w.flagged true) : ∃ a, Point.multiplier duals e.1.dual = .ok a := by
  simp only [largestMultiplier, bind_eq_ok] at h
  obtain ⟨_, h, _⟩ := h
  obtain ⟨_, _, hworse⟩ := exists_of_foldlM_eq_ok h e he
  obtain ⟨a, ha, _⟩ := worse_eq_ok hworse
  exact ⟨a, ha⟩

theorem largestMultiplier_eq_error {w : WorkingSet K} {fault : Fault K}
    (h : largestMultiplier w duals = .error fault) :
    ∃ e ∈ w.flagged true, Point.multiplier duals e.1.dual = .error fault := by
  simp only [largestMultiplier, bind_eq_error, pure_ne_error, and_false, exists_false,
    or_false] at h
  obtain ⟨e, he, worst, h⟩ := foldlM_eq_error h
  simp only [worse, bind_eq_error, pure_ne_error, and_false, exists_false, or_false] at h
  exact ⟨e, he, h⟩

end Scan

variable {w : WorkingSet ℝ} {duals : Point ℝ}

/-- If nothing leaves, every active inequality has a multiplier, and none of them is positive. -/
theorem largestMultiplier_eq_none (h : largestMultiplier w duals = .ok none)
    {e : Inequality ℝ × Nat} (he : e ∈ w.flagged true) :
    ∃ a, Point.multiplier duals e.1.dual = .ok a ∧ a ≤ 0 := by
  simp only [largestMultiplier, bind_eq_ok, pure_eq_ok, Option.map_eq_none_iff] at h
  obtain ⟨_, h, rfl⟩ := h
  obtain ⟨a, ha, hle⟩ := (foldlM_worse Scalar.orderLaws_real h).2.1 e he
  exact ⟨a, ha, not_lt.1 hle⟩

theorem largestMultiplier_eq_some {i : Nat} (h : largestMultiplier w duals = .ok (some i)) :
    (∀ e ∈ w.flagged true, ∃ a, Point.multiplier duals e.1.dual = .ok a) ∧
      ∃ f a, (f, i) ∈ w.flagged true ∧ Point.multiplier duals f.dual = .ok a ∧ 0 < a := by
  refine ⟨fun e he => multiplier_of_largestMultiplier h he, ?_⟩
  simp only [largestMultiplier, bind_eq_ok, pure_eq_ok, Option.map_eq_some_iff] at h
  obtain ⟨_, h, ⟨a, j⟩, rfl, rfl⟩ := h
  rcases (foldlM_worse Scalar.orderLaws_real h).2.2 with h | ⟨_, ⟨f, k⟩, _, b, hl, hb, hlt, h, _⟩
  · cases h
  · cases h
    exact ⟨f, a, hl ▸ List.mem_append_right _ (.head _), hb, hlt⟩

theorem largestMultiplier_ok_none (h : ∀ e ∈ w.flagged true,
    ∃ a, Point.multiplier duals e.1.dual = .ok a ∧ a ≤ 0) :
    largestMultiplier w duals = .ok none := by
  cases hresult : largestMultiplier w duals with
  | error fault =>
      obtain ⟨e, he, herror⟩ := largestMultiplier_eq_error hresult
      obtain ⟨a, ha, _⟩ := h e he
      cases herror.symm.trans ha
  | ok leaving =>
      cases leaving with
      | none => rfl
      | some i =>
          obtain ⟨_, f, a, hf, ha, hpos⟩ := largestMultiplier_eq_some hresult
          obtain ⟨b, hb, hle⟩ := h _ hf
          cases ha.symm.trans hb
          exact absurd hpos (not_lt.2 hle)

end LeavingRule

end ActiveSet
