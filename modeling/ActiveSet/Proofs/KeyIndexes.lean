import ActiveSet.Graph.Mixed
import ActiveSet.Proofs.WorkingSets
import ActiveSet.Solver

/-!
# Indexes and scans

An index lists the keys of its factors in order of first appearance, each with the increasing positions
of the factors that mention it. So what is collected through the indexes of a solver is what a scan of
all its constraints finds.
-/

namespace ActiveSet

/-! ## Positions by key -/

namespace KeyIndex

private theorem lookup_note (m : Keyed (List Nat)) (ix : Nat) (j k : Key) :
    ((note m ix j).lookup k).getD [] =
      (m.lookup k).getD [] ++ if k = j then [ix] else [] := by
  rw [note, Keyed.lookup_insert]
  split
  · rename_i hk
    rw [hk]
    rfl
  · rw [List.append_nil]

private theorem lookup_notes (ix : Nat) (k : Key) {ks : List Key} (hks : ks.Nodup)
    (m : Keyed (List Nat)) : ((ks.foldl (note · ix) m).lookup k).getD [] =
      (m.lookup k).getD [] ++ if k ∈ ks then [ix] else [] := by
  induction ks generalizing m with
  | nil => simp
  | cons j ks ih =>
      rw [List.nodup_cons] at hks
      rw [List.foldl_cons, ih hks.2, lookup_note, List.append_assoc]
      by_cases hk : k = j
      · subst hk
        simp [hks.1]
      · simp [hk]

private theorem lookup_foldl_note (k : Key) {l : List (List Key × Nat)} (hl : ∀ e ∈ l, e.1.Nodup)
    (m : Keyed (List Nat)) :
    ((l.foldl (fun m e => e.1.foldl (note · e.2) m) m).lookup k).getD [] =
      (m.lookup k).getD [] ++ (l.filter fun e => k ∈ e.1).map (·.2) := by
  induction l generalizing m with
  | nil => simp
  | cons e l ih =>
      rw [List.foldl_cons, ih fun g hg => hl g (.tail _ hg), lookup_notes _ _ (hl e (.head _)),
        List.append_assoc]
      by_cases hk : k ∈ e.1 <;> simp [hk]

/-- The positions of the factors that mention a key, in the order of the factors. -/
theorem get_ofKeys {α : Type} {l : List α} {keysOf : α → List Key} (hl : ∀ a ∈ l, (keysOf a).Nodup)
    (k : Key) : (ofKeys (l.map keysOf)).get k =
      (l.zipIdx.filter fun e => k ∈ keysOf e.1).map (·.2) := by
  rw [get, ofKeys, List.zipIdx_map, lookup_foldl_note, List.filter_map, List.map_map]
  · rfl
  · intro e he
    obtain ⟨g, hg, rfl⟩ := List.mem_map.1 he
    exact hl g.1 (List.fst_mem_of_mem_zipIdx hg)

theorem keys_ofKeys (keys : List (List Key)) :
    (ofKeys keys).positions.keys = firstAppearances keys.flatten := by
  have hnote : ∀ (ix : Nat) (m : Keyed (List Nat)) (k : Key),
      (note m ix k).keys = firstAppearances (m.keys ++ [k]) :=
    fun _ _ _ => Keyed.keys_insert_eq ..
  have hnotes : ∀ (m : Keyed (List Nat)) (e : List Key × Nat),
      (e.1.foldl (note · e.2) m).keys = firstAppearances (m.keys ++ e.1) := by
    intro m e
    rw [Keyed.keys_foldl (hnote e.2), List.flatMap_singleton']
  rw [ofKeys, Keyed.keys_foldl hnotes, Keyed.keys_empty, List.nil_append, List.flatMap_def,
    List.zipIdx_map_fst]

/--
An index of factors, given by their keys: all keys in order of first appearance, each with the
positions of the factors that mention it, from the first to the last.
-/
structure Lists (index : KeyIndex) (keys : List (List Key)) : Prop where
  keys_eq : index.positions.keys = firstAppearances keys.flatten
  factors_eq : index.factors = keys.length
  lookup_eq : ∀ k, index.positions.lookup k =
    if k ∈ keys.flatten then some (index.get k) else none
  pairwise_get : ∀ k, (index.get k).Pairwise (· < ·)
  mem_get : ∀ k i, i ∈ index.get k ↔ ∃ ks, keys[i]? = some ks ∧ k ∈ ks

theorem lists_ofKeys {keys : List (List Key)} (h : ∀ ks ∈ keys, ks.Nodup) :
    (ofKeys keys).Lists keys := by
  have hget : ∀ k, (ofKeys keys).get k = (keys.zipIdx.filter fun e => k ∈ e.1).map (·.2) := by
    intro k
    conv_lhs => rw [← List.map_id keys]
    exact get_ofKeys h k
  refine ⟨keys_ofKeys keys, rfl, fun k => ?_, fun k => ?_, fun k i => ?_⟩
  · have hkey : k ∈ keys.flatten ↔ ∃ v, (ofKeys keys).positions.lookup k = some v := by
      rw [← mem_firstAppearances, ← keys_ofKeys, Keyed.mem_keys_iff]
    split
    · rename_i hk
      obtain ⟨v, hv⟩ := hkey.1 hk
      rw [get, hv, Option.getD_some]
    · rename_i hk
      exact Option.eq_none_iff_forall_ne_some.2 fun v hv => hk (hkey.2 ⟨v, hv⟩)
  · have hall : (keys.zipIdx.map (·.2)).Pairwise (· < ·) := by
      rw [List.zipIdx_map_snd, ← List.range_eq_range']
      exact List.pairwise_lt_range
    rw [hget]
    exact hall.sublist (List.filter_sublist.map _)
  · rw [hget, List.mem_map]
    simp only [List.mem_filter, decide_eq_true_eq, List.mem_zipIdx_iff_getElem?, Prod.exists]
    constructor
    · rintro ⟨ks, _, ⟨hks, hk⟩, rfl⟩
      exact ⟨ks, hks, hk⟩
    · rintro ⟨ks, hks, hk⟩
      exact ⟨ks, i, ⟨hks, hk⟩, rfl⟩

end KeyIndex

/-! ## Copies of a program -/

namespace Solver

variable {K : Type} {s : Solver K}

/-- What a solver takes over from its program as it is, and the indexes that it makes. -/
structure Copies (s : Solver K) (settings : Settings K) (p : Problem K) : Prop where
  settings_eq : s.settings = settings
  equalities_eq : s.equalities = p.equalities
  inequalities_eq : s.inequalities = p.inequalities
  costIndex_eq : s.costIndex = .ofKeys (s.cost.map (·.keys))
  equalityIndex_eq : s.equalityIndex = .ofKeys (s.equalities.map (·.keys))
  inequalityIndex_eq : s.inequalityIndex = .ofKeys (s.inequalities.map (·.keys))

private theorem copies_of_assemble {settings : Settings K} {objective : Objective K} {cost : Graph K}
    {p : Problem K} (h : assemble settings objective cost p.equalities p.inequalities = .ok s) :
    s.Copies settings p := by
  simp only [assemble, bind_eq_ok, pure_eq_ok] at h
  obtain ⟨_, _, _, _, _, _, _, _, _, _, _, _, rfl⟩ := h
  exact ⟨rfl, rfl, rfl, rfl, rfl, rfl⟩

theorem copies_ofProblem [Scalar K] {settings : Settings K} {p : Problem K}
    (h : ofProblem settings p = .ok s) : s.Copies settings p := by
  cases hc : p.cost with
  | quadratic factors =>
      rw [ofProblem, hc] at h
      exact copies_of_assemble h
  | linear vectors =>
      simp only [ofProblem, hc, bind_eq_ok] at h
      obtain ⟨_, _, _, _, h⟩ := h
      exact copies_of_assemble h

end Solver

/-! ## Terms at a key -/

variable {K : Type}

theorem Factor.block_of_mem_keys {f : Factor K} {k : Key} (h : k ∈ f.keys) :
    ∃ A, f.terms.lookup k = some A ∧ f.block k = .ok A := by
  obtain ⟨A, hA⟩ := (Keyed.mem_keys_iff _).1 h
  exact ⟨A, hA, (Keyed.get_eq_ok_iff _).2 hA⟩

/-- What is read at the positions of some entries is what a scan of all entries picks. -/
theorem mapM_positions {ε α β : Type} {F : Nat → Except ε β} {P : α → Prop} [DecidablePred P]
    {G : α → Option β} {l : List (α × Nat)}
    (hF : ∀ e ∈ l, P e.1 → ∃ b, F e.2 = .ok b ∧ G e.1 = some b)
    (hG : ∀ e ∈ l, ¬P e.1 → G e.1 = none) :
    ((l.filter fun e => P e.1).map (·.2)).mapM F = .ok ((l.map (·.1)).filterMap G) := by
  induction l with
  | nil => rfl
  | cons e l ih =>
      have ih := ih (fun g hg => hF g (.tail _ hg)) fun g hg => hG g (.tail _ hg)
      by_cases hP : P e.1
      · obtain ⟨b, hb, hGb⟩ := hF e (.head _) hP
        rw [List.filter_cons_of_pos (by simpa using hP), List.map_cons, List.mapM_cons, hb, ok_bind,
          ih, ok_bind, List.map_cons, List.filterMap_cons_some hGb]
        rfl
      · rw [List.filter_cons_of_neg (by simpa using hP), ih, List.map_cons,
          List.filterMap_cons_none (hG e (.head _) hP)]

variable [Scalar K]

/-- The multiplier key and the transposed block at `k`, if the equality mentions `k`. -/
def Equality.dualBlock (k : Key) (c : Equality K) : Option (Key × Matrix K) :=
  (c.terms.lookup k).map fun A => (c.dual, A.transpose)

/-- The multiplier key and the coefficients at `k` as a column, if the inequality mentions `k`. -/
def Inequality.dualBlock (k : Key) (f : Inequality K) : Option (Key × Matrix K) :=
  (f.terms.lookup k).map fun a => (f.dual, (Matrix.ofRow a).transpose)

namespace Solver

variable {s : Solver K} {w : WorkingSet K}

theorem equalityTerms_scan (hs : s.equalityIndex = .ofKeys (s.equalities.map (·.keys))) (k : Key) :
    s.equalityTerms k = .ok (s.equalities.filterMap (Equality.dualBlock k)) := by
  rw [equalityTerms, hs, KeyIndex.get_ofKeys (fun c _ => Keyed.nodup_keys c.terms), mapM_positions
      (P := fun c : Equality K => k ∈ c.toFactor.keys) (G := Equality.dualBlock k),
    List.zipIdx_map_fst]
  · rintro ⟨c, i⟩ hc hk
    obtain ⟨A, hA, hblock⟩ := Factor.block_of_mem_keys hk
    refine ⟨_, ?_, by rw [Equality.dualBlock, hA]; rfl⟩
    rw [WorkingSet.entry_natCast (List.mem_zipIdx_iff_getElem?.1 hc), ok_bind, hblock, ok_bind]
    rfl
  · intro e _ hk
    rw [Equality.dualBlock, (Keyed.lookup_eq_none_iff _).2 hk]
    rfl

/-- The inequality at a position adds its term to the equation at `k` if it is active. -/
theorem term_of_flagged {f : Inequality K} {b : Bool} {ix : Nat} (he : (f, ix) ∈ w.flagged b)
    (k : Key) :
    (do
      if ← w.isActive ix then
        let f ← w.factor ix
        return [(f.dual, (← f.block k).transpose)]
      else return [] : Except (Fault K) (List (Key × Matrix K))) =
    match b, f.terms.lookup k with
    | false, _ => .ok []
    | true, some a => .ok [(f.dual, (Matrix.ofRow a).transpose)]
    | true, none => .error (.missingKey k) := by
  obtain ⟨hf, hb⟩ := WorkingSet.mem_flagged.1 he
  rw [WorkingSet.isActive, WorkingSet.entry_natCast hb, ok_bind]
  cases b with
  | false => rfl
  | true =>
      rw [if_pos rfl, WorkingSet.factor, WorkingSet.entry_natCast hf, ok_bind, Inequality.block,
        Keyed.get]
      cases f.terms.lookup k <;> rfl

/-- What a scan of inequalities with their flags collects at `k`. -/
def activeBlocks (k : Key) (l : List (Inequality K × Bool)) : List (Key × Matrix K) :=
  l.filterMap fun e => if e.2 then e.1.dualBlock k else none

private theorem flatten_scan (k : Key) (l : List (Inequality K × Bool)) :
    (l.filterMap fun e => (e.1.dualBlock k).map fun t => if e.2 then [t] else []).flatten =
      activeBlocks k l := by
  unfold activeBlocks
  induction l with
  | nil => rfl
  | cons e l ih =>
      obtain ⟨f, b⟩ := e
      cases hterm : f.dualBlock k <;> cases b <;> simpa [hterm] using ih

theorem inequalityTerms_scan (hs : s.inequalityIndex = .ofKeys (s.inequalities.map (·.keys)))
    (hw : w.factors = s.inequalities) (k : Key) :
    s.inequalityTerms w k = .ok (activeBlocks k (w.factors.zip w.active)) := by
  have hpos : s.inequalities.zipIdx = w.numbered.map fun e => (e.1.1, e.2) := by
    have hzip : (w.factors.zip w.active).map Prod.fst = w.factors := by
      rw [List.map_fst_zip]
      exact w.size_eq.ge
    rw [← hw, ← hzip, List.zipIdx_map, WorkingSet.numbered]
    rfl
  have hget : s.inequalityIndex.get k =
      (w.numbered.filter fun e => k ∈ e.1.1.keys).map (·.2) := by
    rw [hs, KeyIndex.get_ofKeys (fun f _ => Keyed.nodup_keys f.terms), hpos, List.filter_map,
      List.map_map]
    rfl
  rw [inequalityTerms, hget, mapM_positions (P := fun e : Inequality K × Bool => k ∈ e.1.keys)
    (G := fun e => (e.1.dualBlock k).map fun t => if e.2 then [t] else []), ok_bind,
    flatten_scan, WorkingSet.numbered, List.zipIdx_map_fst]
  · rfl
  · rintro ⟨⟨f, b⟩, i⟩ he hk
    obtain ⟨a, ha⟩ := (Keyed.mem_keys_iff _).1 hk
    refine ⟨_, ?_, by rw [Inequality.dualBlock, ha]; rfl⟩
    rw [term_of_flagged (WorkingSet.mem_flagged_of_numbered he), ha]
    cases b <;> rfl
  · rintro ⟨⟨f, b⟩, i⟩ _ hk
    rw [Inequality.dualBlock, (Keyed.lookup_eq_none_iff _).2 hk]
    rfl

/-- A scan of all inequalities collects from the active ones, in their order. -/
theorem activeBlocks_zip (w : WorkingSet K) (k : Key) :
    activeBlocks k (w.factors.zip w.active) = (w.flagged true).filterMap (·.1.dualBlock k) := by
  have hzip : w.factors.zip w.active = w.numbered.map (·.1) := (List.zipIdx_map_fst 0 _).symm
  rw [activeBlocks, hzip, WorkingSet.flagged, List.filterMap_map, List.filterMap_map,
    List.filterMap_filter]
  refine List.filterMap_congr fun e _ => ?_
  cases hb : e.1.2 <;> simp [hb]

end Solver

end ActiveSet
