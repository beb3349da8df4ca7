import ActiveSet.Proofs.FeasibilityTests
import ActiveSet.Proofs.Shifts

/-!
# Dimensions of keys

Merged dimensions record all uses of the keys, in the order in which the keys first appear. A solver
exists exactly for a program whose uses agree, however its cost, equalities and inequalities are
merged on the way.
-/

namespace ActiveSet

/-! ## Merged dimensions -/

namespace Keyed

variable {K : Type}

/-- A map of dimensions that lists the keys of some uses in order and gives each its dimension. -/
structure Records (m : Keyed Nat) (uses : List (Key × Nat)) : Prop where
  keys_eq : m.keys = firstAppearances (uses.map (·.1))
  lookup_eq : ∀ e ∈ uses, m.lookup e.1 = some e.2

/-- Uses of one key come with one dimension. -/
def Agree (uses : List (Key × Nat)) : Prop := ∀ e ∈ uses, ∀ f ∈ uses, e.1 = f.1 → e.2 = f.2

instance (uses : List (Key × Nat)) : Decidable (Agree uses) :=
  inferInstanceAs (Decidable (∀ e ∈ uses, ∀ f ∈ uses, e.1 = f.1 → e.2 = f.2))

variable {m n : Keyed Nat} {uses added : List (Key × Nat)}

theorem records_entries (m : Keyed Nat) : m.Records m.entries :=
  ⟨(firstAppearances_of_nodup m.nodup_keys).symm, fun _ he => lookup_of_mem he⟩

theorem records_empty : (empty : Keyed Nat).Records [] := ⟨rfl, fun _ he => nomatch he⟩

theorem Records.agree (h : m.Records uses) : Agree uses := by
  intro e he f hf heq
  have hlookup := h.lookup_eq e he
  rw [heq, h.lookup_eq f hf] at hlookup
  exact (Option.some.inj hlookup).symm

theorem Agree.mono {us vs : List (Key × Nat)} (h : Agree vs) (hsub : us ⊆ vs) : Agree us :=
  fun e he f hf => h e (hsub he) f (hsub hf)

theorem Records.mem_entries (h : m.Records uses) {e : Key × Nat} : e ∈ m.entries ↔ e ∈ uses := by
  constructor
  · intro he
    have hk : e.1 ∈ m.keys := List.mem_map_of_mem (f := (·.1)) he
    rw [h.keys_eq, mem_firstAppearances] at hk
    obtain ⟨f, hf, hfe⟩ := List.mem_map.1 hk
    have hlookup := h.lookup_eq f hf
    rw [hfe, lookup_of_mem he] at hlookup
    rwa [Prod.ext hfe.symm (Option.some.inj hlookup)]
  · exact fun he => (lookup_iff m).1 (h.lookup_eq e he)

theorem Records.unique (hm : m.Records uses) (hn : n.Records uses) : m = n := by
  refine ext_lookup (hm.keys_eq.trans hn.keys_eq.symm) fun k => Option.ext fun d => ?_
  rw [lookup_iff, lookup_iff, hm.mem_entries, hn.mem_entries]

theorem Records.insert (hm : m.Records uses) {e : Key × Nat} (h : Agree (uses ++ [e])) :
    (m.insert e.1 e.2).Records (uses ++ [e]) := by
  refine ⟨?_, fun f hf => ?_⟩
  · have hkeys := keys_foldl_insert [e] m
    rw [hm.keys_eq, firstAppearances_append_left, ← List.map_append] at hkeys
    exact hkeys
  · rw [lookup_insert]
    split
    · rename_i hk
      rw [h f hf e (by simp) hk]
    · rename_i hk
      rcases List.mem_append.1 hf with hf | hf
      · exact hm.lookup_eq f hf
      · exact absurd (congrArg (·.1) (List.mem_singleton.1 hf)) hk

/-- Further uses that agree with those before are recorded by inserting them. -/
theorem Records.insert_all (hm : m.Records uses) (h : Agree (uses ++ added)) :
    (added.foldl (fun m e => m.insert e.1 e.2) m).Records (uses ++ added) := by
  induction added generalizing m uses with
  | nil => rwa [List.append_nil]
  | cons e added ih =>
      rw [List.append_cons] at h ⊢
      exact ih (hm.insert (h.mono (List.subset_append_left ..))) h

theorem exists_records (h : Agree uses) : ∃ m : Keyed Nat, m.Records uses :=
  ⟨_, records_empty.insert_all h⟩

theorem Records.of_mergeDims (hm : m.Records uses)
    (h : (mergeDims m added : Except (Fault K) _) = .ok n) : n.Records (uses ++ added) := by
  obtain ⟨hkeep, hadd⟩ := lookup_mergeDims h
  refine ⟨?_, fun e he => ?_⟩
  · rw [mergeDims_eq_foldl h, keys_foldl_insert, hm.keys_eq, firstAppearances_append_left,
      ← List.map_append]
  · rcases List.mem_append.1 he with he | he
    · exact hkeep _ _ (hm.lookup_eq e he)
    · exact hadd e he

/-- Merging succeeds exactly if there is something to record, and records it. -/
theorem Records.mergeDims_eq_ok (hm : m.Records uses) :
    (mergeDims m added : Except (Fault K) _) = .ok n ↔ n.Records (uses ++ added) := by
  refine ⟨hm.of_mergeDims, fun hn => ?_⟩
  have hD : ∀ e ∈ uses ++ added, e.2 = (n.lookup e.1).getD 0 := fun e he => by
    rw [hn.lookup_eq e he]
    rfl
  have hwithin : m.Within fun k => (n.lookup k).getD 0 := fun k d hd =>
    hD (k, d) (List.mem_append_left _ (hm.mem_entries.1 ((lookup_iff m).1 hd)))
  obtain ⟨n', hn', _⟩ := mergeDims_of_within (K := K)
    (fun e he => hD e (List.mem_append_right _ he)) hwithin
  rw [hn', hn.unique (hm.of_mergeDims hn')]

/-- What another map records may be recorded from its entries as well. -/
theorem Records.append_entries (hn : n.Records added) :
    m.Records (uses ++ n.entries) ↔ m.Records (uses ++ added) := by
  have hkeys : firstAppearances ((uses ++ n.entries).map (·.1)) =
      firstAppearances ((uses ++ added).map (·.1)) := by
    have hentries : n.entries.map (·.1) = firstAppearances (added.map (·.1)) := hn.keys_eq
    rw [List.map_append, hentries, firstAppearances_append_right, List.map_append]
  constructor
  · intro h
    refine ⟨h.keys_eq.trans hkeys, fun e he => h.lookup_eq e ?_⟩
    rwa [List.mem_append, hn.mem_entries, ← List.mem_append]
  · intro h
    refine ⟨h.keys_eq.trans hkeys.symm, fun e he => h.lookup_eq e ?_⟩
    rwa [List.mem_append, hn.mem_entries, ← List.mem_append] at he

end Keyed

/-! ## Programs -/

variable {K : Type}

def Cost.uses : Cost K → List (Key × Nat)
  | .quadratic factors => factors.flatMap fun f => f.dims.entries
  | .linear vectors => (vectors.map List.length).entries

namespace Problem

/-- The keys that the constraints of a program mention, each time with the dimension it has there. -/
def constraintUses (p : Problem K) : List (Key × Nat) :=
  (p.equalities.flatMap fun f => f.dims.entries) ++ p.inequalities.flatMap fun f => f.dims.entries

def uses (p : Problem K) : List (Key × Nat) := p.cost.uses ++ p.constraintUses

/-- Every key has one dimension in all cost terms, equalities and inequalities that mention it. -/
def Consistent (p : Problem K) : Prop := Keyed.Agree p.uses

instance (p : Problem K) : Decidable p.Consistent := inferInstanceAs (Decidable (Keyed.Agree p.uses))

end Problem

private theorem keys_flatMap_dims {α : Type} {l : List α} {dims : α → Keyed Nat} {keys : α → List Key}
    (h : ∀ a, (dims a).keys = keys a) :
    (l.flatMap fun a => (dims a).entries).map (·.1) = l.flatMap keys := by
  rw [List.map_flatMap]
  exact List.flatMap_congr fun a _ => h a

theorem Factor.keys_dims (f : Factor K) : f.dims.keys = f.keys := Keyed.keys_map ..

theorem Inequality.keys_dims (f : Inequality K) : f.dims.keys = f.keys := Keyed.keys_map ..

theorem Problem.keys_constraintUses (p : Problem K) : p.constraintUses.map (·.1) =
    p.equalities.flatMap (·.keys) ++ p.inequalities.flatMap (·.keys) := by
  rw [constraintUses, List.map_append, keys_flatMap_dims fun f : Equality K => f.toFactor.keys_dims,
    keys_flatMap_dims fun f : Inequality K => f.keys_dims]

theorem Problem.keys_eq_uses (p : Problem K) : p.keys = firstAppearances (p.uses.map (·.1)) := by
  rw [keys, uses, List.map_append, keys_constraintUses, List.append_assoc]
  cases p.cost with
  | quadratic factors =>
      rw [Cost.keys, Graph.keys, firstAppearances_append_left, Cost.uses,
        keys_flatMap_dims fun f : Factor K => f.keys_dims]
  | linear vectors =>
      have hkeys : (vectors.map List.length).entries.map (·.1) = vectors.keys := Keyed.keys_map ..
      rw [Cost.keys, Cost.uses, hkeys]

/-- Merging the constraints behind other uses, where all of them can be recorded. -/
theorem Problem.exists_merged (p : Problem K) {m : Keyed Nat} {us : List (Key × Nat)}
    (h : m.Records (us ++ p.constraintUses)) : ∃ m₁ d m₂ m₃ : Keyed Nat, m₁.Records us ∧
      equalityDims p.equalities = (.ok m₂ : Except (Fault K) _) ∧
      inequalityDims p.inequalities = (.ok m₃ : Except (Fault K) _) ∧
      Keyed.mergeDims m₁ m₂.entries = (.ok d : Except (Fault K) _) ∧
      Keyed.mergeDims d m₃.entries = (.ok m : Except (Fault K) _) := by
  rw [constraintUses, ← List.append_assoc] at h
  obtain ⟨d, hd⟩ := Keyed.exists_records (h.agree.mono (List.subset_append_left ..))
  obtain ⟨m₁, hm₁⟩ := Keyed.exists_records (hd.agree.mono (List.subset_append_left ..))
  obtain ⟨m₂, hm₂⟩ := Keyed.exists_records (hd.agree.mono (List.subset_append_right ..))
  obtain ⟨m₃, hm₃⟩ := Keyed.exists_records (h.agree.mono (List.subset_append_right ..))
  exact ⟨m₁, d, m₂, m₃, hm₁, Keyed.records_empty.mergeDims_eq_ok.2 hm₂,
    Keyed.records_empty.mergeDims_eq_ok.2 hm₃, hm₁.mergeDims_eq_ok.2 (hm₂.append_entries.2 hd),
    hd.mergeDims_eq_ok.2 (hm₃.append_entries.2 h)⟩

namespace Solver

variable {settings : Settings K} {objective : Objective K} {cost : Graph K} {p : Problem K}
  {s : Solver K} {m : Keyed Nat}

/-- A solver that is assembled records the uses of its cost and of the constraints. -/
theorem records_of_assemble
    (h : assemble settings objective cost p.equalities p.inequalities = .ok s) :
    s.dims.Records ((cost.flatMap fun f => f.dims.entries) ++ p.constraintUses) ∧
      s.ordering = s.dims.keys ∧ s.constrainedKeys = firstAppearances (p.constraintUses.map (·.1)) := by
  simp only [assemble, bind_eq_ok, pure_eq_ok] at h
  obtain ⟨m₁, hm₁, d₁, hd₁, m₂, hm₂, d₂, hd₂, m₃, hm₃, d₃, hd₃, rfl⟩ := h
  rw [Graph.dims, Keyed.records_empty.mergeDims_eq_ok] at hm₁
  rw [Problem.equalityDims, Keyed.records_empty.mergeDims_eq_ok] at hm₂
  rw [Problem.inequalityDims, Keyed.records_empty.mergeDims_eq_ok] at hm₃
  rw [Keyed.records_empty.mergeDims_eq_ok, hm₁.append_entries] at hd₁
  rw [hd₁.mergeDims_eq_ok, hm₂.append_entries] at hd₂
  rw [hd₂.mergeDims_eq_ok, hm₃.append_entries] at hd₃
  refine ⟨?_, rfl, by rw [Problem.keys_constraintUses]⟩
  rw [Problem.constraintUses, ← List.append_assoc]
  exact hd₃

/-- Parts whose uses can be recorded are assembled. -/
theorem assemble_ok (settings : Settings K) (objective : Objective K)
    (h : m.Records ((cost.flatMap fun f => f.dims.entries) ++ p.constraintUses)) :
    ∃ s, assemble settings objective cost p.equalities p.inequalities = .ok s := by
  obtain ⟨m₁, d, m₂, m₃, hm₁, hm₂, hm₃, hd, hm⟩ := p.exists_merged h
  have hcost : (cost.dims : Except (Fault K) _) = .ok m₁ := Keyed.records_empty.mergeDims_eq_ok.2 hm₁
  have hfirst : (Keyed.mergeDims .empty m₁.entries : Except (Fault K) _) = .ok m₁ :=
    Keyed.records_empty.mergeDims_eq_ok.2 (Keyed.records_entries m₁)
  simp only [assemble, hcost, ok_bind, hfirst, hm₂, hd, hm₃, hm]
  exact ⟨_, rfl⟩

theorem assemble_eq_error {e : Fault K}
    (h : assemble settings objective cost p.equalities p.inequalities = .error e) :
    ∃ c, e = .dimension c := by
  simp only [assemble, bind_eq_error, pure_ne_error, and_false, exists_false, or_false] at h
  rcases h with h | ⟨m₁, _, h | ⟨d₁, _, h | ⟨m₂, _, h | ⟨d₂, _, h | ⟨m₃, _, h⟩⟩⟩⟩⟩ <;>
    exact Keyed.mergeDims_eq_error h

end Solver

/-! ## Dimensions of linear programs -/

theorem Cost.records_of_dims {c : Cost K} {m : Keyed Nat}
    (h : (c.dims : Except (Fault K) _) = .ok m) : m.Records c.uses := by
  cases c with
  | quadratic factors => exact Keyed.records_empty.mergeDims_eq_ok.1 h
  | linear vectors =>
      obtain rfl := Except.ok.inj h
      exact Keyed.records_entries _

theorem Cost.dims_eq_ok {c : Cost K} {m : Keyed Nat} (h : m.Records c.uses) :
    (c.dims : Except (Fault K) _) = .ok m := by
  cases c with
  | quadratic factors => exact Keyed.records_empty.mergeDims_eq_ok.2 h
  | linear vectors => exact congrArg _ ((Keyed.records_entries _).unique h)

namespace Problem

variable {p : Problem K} {m : Keyed Nat}

/-- Even where uses disagree, the dimensions of a program come in the order of its keys. -/
theorem keys_dims (h : (p.dims : Except (Fault K) _) = .ok m) : m.keys = p.keys := by
  simp only [dims, bind_eq_ok, pure_eq_ok] at h
  obtain ⟨m₁, hm₁, m₂, hm₂, m₃, hm₃, rfl⟩ := h
  have hequal : m₂.entries.map (·.1) = _ := (Keyed.records_empty.mergeDims_eq_ok.1 hm₂).keys_eq
  have hineq : m₃.entries.map (·.1) = _ := (Keyed.records_empty.mergeDims_eq_ok.1 hm₃).keys_eq
  rw [List.foldl_append, Keyed.keys_foldl_insert, Keyed.keys_foldl_insert, hequal, hineq,
    (Cost.records_of_dims hm₁).keys_eq, keys_eq_uses, uses, constraintUses]
  simp only [firstAppearances_append_left, firstAppearances_append_right, List.map_append,
    List.nil_append, List.append_assoc]

/-- Where uses agree, the later word is that of the earlier ones. -/
theorem dims_eq_ok (h : m.Records p.uses) : (p.dims : Except (Fault K) _) = .ok m := by
  obtain ⟨m₁, d, m₂, m₃, hm₁, hm₂, hm₃, hd, hm⟩ := p.exists_merged h
  rw [dims, Cost.dims_eq_ok hm₁, hm₂, hm₃, ok_bind, ok_bind, ok_bind, pure_eq_ok, List.foldl_append,
    ← Keyed.mergeDims_eq_foldl hd, ← Keyed.mergeDims_eq_foldl hm]

theorem dims_eq_error {e : Fault K} (h : p.dims = .error e) : ∃ c, e = .dimension c := by
  simp only [dims, bind_eq_error, pure_ne_error, and_false, exists_false, or_false] at h
  rcases h with h | ⟨m₁, _, h | ⟨m₂, _, h⟩⟩
  · cases hc : p.cost with
    | quadratic factors =>
        rw [hc] at h
        exact Keyed.mergeDims_eq_error h
    | linear vectors =>
        rw [hc] at h
        cases h
  · exact Keyed.mergeDims_eq_error h
  · exact Keyed.mergeDims_eq_error h

end Problem

/-! ## Solvers of linear programs -/

/-- A linear cost holds numbers only. -/
def Cost.Numeric [Scalar K] (c : Cost K) : Prop :=
  ∀ vectors, c = .linear vectors → vectors.values.any Vec.hasNaN = false

namespace Solver

variable [Scalar K] {vectors : Keyed (List K)} {e : Key × Nat}

private theorem hasNaN_gradient (hK : Scalar.NaNLaws K)
    (hvectors : vectors.values.any Vec.hasNaN = false) (e : Key × Nat) :
    Vec.hasNaN (Vec.neg ((vectors.lookup e.1).getD (Vec.zeros e.2))) = false := by
  have hneg : ∀ v : List K, Vec.hasNaN v = false → Vec.hasNaN (Vec.neg v) = false := by
    intro v hv
    rw [Vec.hasNaN, List.any_eq_false] at hv ⊢
    exact List.forall_mem_map.2 fun a ha => by simpa using hK.neg a (by simpa using hv a ha)
  refine hneg _ ?_
  cases hc : vectors.lookup e.1 with
  | none =>
      rw [Option.getD_none, Vec.hasNaN, List.any_eq_false]
      intro a ha
      rw [List.eq_of_mem_replicate ha, hK.zero]
      exact Bool.false_ne_true
  | some c =>
      have hmem := List.mem_map_of_mem (f := (·.2)) ((Keyed.lookup_iff vectors).1 hc)
      simpa using List.any_eq_false.1 hvectors c hmem

private theorem hasNaN_identity (hK : Scalar.NaNLaws K) (e : Key × Nat) :
    (Keyed.ofList [(e.1, (.identity e.2 : Matrix K))]).values.any Matrix.hasNaN = false := by
  rw [Keyed.values, Keyed.entries_ofList (by simp), List.map_singleton, List.any_cons, List.any_nil,
    Bool.or_false, Matrix.hasNaN, List.any_eq_false]
  refine List.forall_mem_map.2 fun j _ => ?_
  rw [Vec.hasNaN, Bool.not_eq_true, List.any_eq_false]
  refine List.forall_mem_map.2 fun i _ => ?_
  split
  · simp [hK.one]
  · simp [hK.zero]

theorem proximalFactor_ok (hK : Scalar.NaNLaws K) (hvectors : vectors.values.any Vec.hasNaN = false)
    (hlen : ∀ c, vectors.lookup e.1 = some c → c.length = e.2) :
    ∃ f, proximalFactor vectors e = .ok f := by
  refine ⟨_, Factor.make_ok_of_noNaN (fun t ht => ?_) (hasNaN_gradient hK hvectors e)
    (hasNaN_identity hK e)⟩
  rw [Keyed.entries_ofList (by simp)] at ht
  obtain rfl := List.mem_singleton.1 ht
  rw [Matrix.height_identity, Vec.length_neg]
  cases hc : vectors.lookup e.1 with
  | none => exact (Vec.length_zeros _).symm
  | some c => exact (hlen c hc).symm

theorem proximalFactor_eq_error (hK : Scalar.NaNLaws K)
    (hvectors : vectors.values.any Vec.hasNaN = false) {fault : Fault K}
    (h : proximalFactor vectors e = .error fault) : ∃ c, fault = .dimension c :=
  Factor.make_eq_error_of_noNaN (hasNaN_gradient hK hvectors e) (hasNaN_identity hK e) h

variable {settings : Settings K} {p : Problem K} {s : Solver K} {m : Keyed Nat}

/-- What a proximal factor takes from a linear cost that is present at its key. -/
theorem length_of_proximalFactor {f : Factor K} (h : proximalFactor vectors e = .ok f) {c : List K}
    (hc : vectors.lookup e.1 = some c) : c.length = e.2 := by
  obtain ⟨_, hb, hlen⟩ := proximalFactor_eq_ok h
  rwa [hb, hc, Option.getD_some, Vec.length_neg] at hlen

/-- A solver records the uses of its program. -/
theorem records_of_ofProblem (h : ofProblem settings p = .ok s) : s.dims.Records p.uses ∧
    s.ordering = s.dims.keys ∧ s.constrainedKeys = firstAppearances (p.constraintUses.map (·.1)) := by
  cases hc : p.cost with
  | quadratic factors =>
      simp only [ofProblem, hc] at h
      rw [Problem.uses, hc]
      exact records_of_assemble h
  | linear vectors =>
      simp only [ofProblem, hc, bind_eq_ok, mapM_eq_ok] at h
      obtain ⟨dims, hdims, proximal, hprox, h⟩ := h
      obtain ⟨hrecords, hrest⟩ := records_of_assemble h
      rw [dims_proximal hprox] at hrecords
      have hkeys : dims.entries.map (·.1) = _ := (Problem.keys_dims hdims).trans p.keys_eq_uses
      refine ⟨⟨?_, fun e he => ?_⟩, hrest⟩
      · have hsub : p.constraintUses.map (·.1) ⊆ p.uses.map (·.1) :=
          List.map_subset _ (List.subset_append_right ..)
        rw [hrecords.keys_eq, List.map_append, hkeys, firstAppearances_append_left,
          firstAppearances_append_of_subset hsub]
      · rcases List.mem_append.1 he with hcost | hcons
        · -- The proximal factor at the key of a cost vector has the length of the vector.
          have hmem : e.1 ∈ dims.entries.map (·.1) := by
            rw [hkeys, mem_firstAppearances]
            exact List.mem_map_of_mem (f := (·.1)) he
          obtain ⟨g, hg, hge⟩ := List.mem_map.1 hmem
          obtain ⟨f, _, hf⟩ := exists_of_mem_left hprox hg
          rw [hc] at hcost
          obtain ⟨t, ht, rfl⟩ := List.mem_map.1 hcost
          have hlen := length_of_proximalFactor hf (hge ▸ Keyed.lookup_of_mem ht)
          rw [← hge, hlen]
          exact hrecords.lookup_eq g (List.mem_append_left _ hg)
        · exact hrecords.lookup_eq e (List.mem_append_right _ hcons)

theorem ofProblem_ok (hK : Scalar.NaNLaws K) (settings : Settings K) (hcost : p.cost.Numeric)
    (h : m.Records p.uses) : ∃ s, ofProblem settings p = .ok s := by
  cases hc : p.cost with
  | quadratic factors =>
      simp only [ofProblem, hc]
      rw [Problem.uses, hc] at h
      exact assemble_ok settings .quadratic h
  | linear vectors =>
      have hfactors : ∀ e ∈ m.entries, ∃ f, proximalFactor vectors e = .ok f := by
        intro e he
        refine proximalFactor_ok hK (hcost vectors hc) fun c hv => ?_
        have huse : (e.1, c.length) ∈ p.cost.uses := by
          rw [hc]
          exact List.mem_map_of_mem (f := fun t : Key × List K => (t.1, t.2.length))
            ((Keyed.lookup_iff vectors).1 hv)
        have hlookup := h.lookup_eq _ (List.mem_append_left _ huse)
        exact Option.some.inj (hlookup.symm.trans (Keyed.lookup_of_mem he))
      obtain ⟨proximal, hprox⟩ := mapM_ok hfactors
      have hrecords : m.Records ((proximal.flatMap fun f => f.dims.entries) ++ p.constraintUses) := by
        rw [dims_proximal (mapM_eq_ok.1 hprox)]
        refine ⟨?_, fun e he => ?_⟩
        · have hkeys : m.entries.map (·.1) = m.keys := rfl
          have hsub : p.constraintUses.map (·.1) ⊆ m.keys := by
            intro k hk
            rw [h.keys_eq, mem_firstAppearances]
            exact List.map_subset _ (List.subset_append_right ..) hk
          rw [List.map_append, hkeys, firstAppearances_append_of_subset hsub,
            firstAppearances_of_nodup m.nodup_keys]
        · rcases List.mem_append.1 he with he | he
          · exact Keyed.lookup_of_mem he
          · exact h.lookup_eq e (List.mem_append_right _ he)
      obtain ⟨s, hs⟩ := assemble_ok settings (.linear vectors) hrecords
      exact ⟨s, by simp only [ofProblem, hc, Problem.dims_eq_ok h, ok_bind, hprox, hs]⟩

theorem ofProblem_eq_error (hK : Scalar.NaNLaws K) (hcost : p.cost.Numeric) {fault : Fault K}
    (h : ofProblem settings p = .error fault) : ∃ c, fault = .dimension c := by
  cases hc : p.cost with
  | quadratic factors =>
      simp only [ofProblem, hc] at h
      exact assemble_eq_error h
  | linear vectors =>
      simp only [ofProblem, hc, bind_eq_error] at h
      rcases h with h | ⟨dims, _, h | ⟨proximal, _, h⟩⟩
      · exact Problem.dims_eq_error h
      · obtain ⟨e, _, h⟩ := mapM_eq_error h
        exact proximalFactor_eq_error hK (hcost vectors hc) h
      · exact assemble_eq_error h

/--
A solver can be made exactly from a program in which every key has one dimension, and else the fault
is one of dimensions. Its ordering is that of the keys of the program, each with its dimension.
-/
theorem ofProblem_consistent (hK : Scalar.NaNLaws K) (settings : Settings K)
    (hcost : p.cost.Numeric) :
    ((∃ s, ofProblem settings p = .ok s) ↔ p.Consistent) ∧
      (¬p.Consistent → ∃ c, ofProblem settings p = .error (.dimension c)) ∧
      ∀ s, ofProblem settings p = .ok s → s.ordering = p.keys ∧ s.dims.keys = p.keys ∧
        (∀ e ∈ p.uses, s.dims.lookup e.1 = some e.2) ∧
        s.constrainedKeys =
          firstAppearances (p.equalities.flatMap (·.keys) ++ p.inequalities.flatMap (·.keys)) ∧
        s.constrainedKeys.Nodup := by
  have hiff : (∃ s, ofProblem settings p = .ok s) ↔ p.Consistent := by
    constructor
    · rintro ⟨s, hs⟩
      exact (records_of_ofProblem hs).1.agree
    · intro h
      obtain ⟨m, hm⟩ := Keyed.exists_records h
      exact ofProblem_ok hK settings hcost hm
  refine ⟨hiff, fun h => ?_, fun s hs => ?_⟩
  · cases hs : ofProblem settings p with
    | ok s => exact absurd (hiff.1 ⟨s, hs⟩) h
    | error fault =>
        obtain ⟨c, rfl⟩ := ofProblem_eq_error hK hcost hs
        exact ⟨c, rfl⟩
  · obtain ⟨hrecords, hordering, hkeys⟩ := records_of_ofProblem hs
    have hdims : s.dims.keys = p.keys := hrecords.keys_eq.trans p.keys_eq_uses.symm
    refine ⟨hordering.trans hdims, hdims, hrecords.lookup_eq, ?_, ?_⟩
    · rw [hkeys, Problem.keys_constraintUses]
    · rw [hkeys]
      exact nodup_firstAppearances _

end Solver

namespace TwoVariables

section Clash

variable {K : Type} [Scalar K]

/-- A program without cost at the keys of its constraints; the inequality wants `n` dimensions. -/
def clash (n : Nat) : Problem K :=
  .make (.linear (Keyed.ofList [(spare, [1, 1])]))
    [{ terms := Keyed.ofList [(left, .identity 1), (right, .identity 1)]
       b := [1]
       rows_eq := List.forall_mem_cons.2 ⟨rfl, List.forall_mem_singleton.2 rfl⟩
       dual := .number 0 }]
    [{ terms := Keyed.ofList [(right, List.replicate n 1)], bound := 1, dual := .number 1 }]

theorem uses_clash (n : Nat) :
    (clash n : Problem K).uses = [(spare, 2), (left, 1), (right, 1), (right, n)] := by
  change [(spare, 2), (left, 1), (right, 1), (right, (List.replicate n (1 : K)).length)] = _
  rw [List.length_replicate]

theorem numeric_clash (hK : Scalar.NaNLaws K) (n : Nat) : (clash n : Problem K).cost.Numeric := by
  intro vectors hvectors
  obtain rfl := Cost.linear.inj hvectors
  change ((Scalar.isNaN (1 : K) || (Scalar.isNaN (1 : K) || false)) || false) = false
  rw [hK.one]
  rfl

end Clash

/-- With exact numbers and with those of binary64. -/
theorem ofProblem_consistent_clash : Scalar.NaNLaws ℝ ∧ Scalar.NaNLaws Float ∧
    ((∃ s, Solver.ofProblem OneVariable.settings (clash 1) = .ok s ∧
        s.ordering = [spare, left, right] ∧ s.constrainedKeys = [left, right]) ∧
      ∃ c, Solver.ofProblem OneVariable.settings (clash 2) = .error (.dimension c)) ∧
    (∃ s, Solver.ofProblem Overflow.settings (clash 1) = .ok s ∧
        s.ordering = [spare, left, right] ∧ s.constrainedKeys = [left, right]) ∧
      ∃ c, Solver.ofProblem Overflow.settings (clash 2) = .error (.dimension c) := by
  have hclash : ∀ {K : Type} [Scalar K] (_ : Scalar.NaNLaws K) (settings : Settings K),
      (∃ s, Solver.ofProblem settings (clash 1) = .ok s ∧ s.ordering = [spare, left, right] ∧
        s.constrainedKeys = [left, right]) ∧
      ∃ c, Solver.ofProblem settings (clash 2) = .error (.dimension c) := by
    intro K _ hK settings
    have hone := Solver.ofProblem_consistent hK settings (numeric_clash hK 1)
    have htwo := Solver.ofProblem_consistent hK settings (numeric_clash hK 2)
    obtain ⟨s, hs⟩ := hone.1.2 (by rw [Problem.Consistent, uses_clash]; decide)
    obtain ⟨hordering, _, _, hkeys, _⟩ := hone.2.2 s hs
    refine ⟨⟨s, hs, hordering, hkeys⟩, htwo.2.1 ?_⟩
    rw [Problem.Consistent, uses_clash]
    decide
  exact ⟨Scalar.nanLaws_real, Scalar.nanLaws_float, hclash Scalar.nanLaws_real _,
    hclash Scalar.nanLaws_float _⟩

end TwoVariables

end ActiveSet
