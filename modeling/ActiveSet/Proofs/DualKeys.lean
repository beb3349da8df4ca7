import ActiveSet.Problem
import ActiveSet.Proofs.Faults
import ActiveSet.Proofs.Real

/-!
# Fresh multiplier keys

Constraints come one by one, with a key for their multiplier or without. The counter of a role stays
ahead of every key of that role except those that later calls brought along themselves and the bare
pairs that the program began with, so these are the only keys that the next automatic one can repeat.
-/

namespace ActiveSet

/-! ## The counter -/

namespace KeySource

/-- Every key of the role has a number below the next one to give. -/
def Ahead (s : KeySource) (k : Key) : Prop := ∀ n, k = .dual s.role n → n < s.next

theorem Ahead.mono {s t : KeySource} {k : Key} (h : s.Ahead k) (hrole : t.role = s.role)
    (hnext : s.next ≤ t.next) : t.Ahead k :=
  fun n hn => lt_of_lt_of_le (h n (hrole ▸ hn)) hnext

theorem not_ahead_fresh (s : KeySource) : ¬ s.Ahead s.fresh.1 := fun h => lt_irrefl _ (h _ rfl)

theorem ahead_fresh (s : KeySource) : s.fresh.2.Ahead s.fresh.1 := by
  intro n hn
  obtain ⟨-, rfl⟩ := Key.dual.inj hn
  exact Int.lt_succ s.next

theorem skipOne_spec (s : KeySource) (k : Key) :
    (s.skipOne k).role = s.role ∧ s.next ≤ (s.skipOne k).next ∧ (s.skipOne k).Ahead k := by
  cases k with
  | dual role n =>
      by_cases hrole : role = s.role
      · simp only [skipOne, hrole, ↓reduceIte, Ahead, true_and]
        refine ⟨le_max_left .., fun m hm => ?_⟩
        obtain ⟨-, rfl⟩ := Key.dual.inj hm
        exact lt_of_lt_of_le (Int.lt_succ n) (le_max_right ..)
      · simp only [skipOne, hrole, ↓reduceIte, le_refl, true_and]
        exact fun m hm => absurd (Key.dual.inj hm).1 hrole
  | text | number | unnamed => exact ⟨rfl, le_rfl, nofun⟩

theorem foldl_skipUnless_spec (bare : Nat → Bool) (s : KeySource) (used : List (Key × Nat)) :
    (used.foldl (skipUnless bare) s).role = s.role ∧
      s.next ≤ (used.foldl (skipUnless bare) s).next ∧
      ∀ e ∈ used, bare e.2 = false → (used.foldl (skipUnless bare) s).Ahead e.1 := by
  induction used generalizing s with
  | nil => exact ⟨rfl, le_rfl, by simp⟩
  | cons e used ih =>
      obtain ⟨ihrole, ihnext, ihahead⟩ := ih (s.skipUnless bare e)
      rw [List.foldl_cons, List.forall_mem_cons]
      cases hbare : bare e.2 with
      | true =>
          rw [skipUnless, if_pos hbare] at ihrole ihnext ihahead ⊢
          exact ⟨ihrole, ihnext, nofun, ihahead⟩
      | false =>
          rw [skipUnless, hbare, if_neg Bool.false_ne_true] at ihrole ihnext ihahead ⊢
          obtain ⟨hrole, hnext, hahead⟩ := s.skipOne_spec e.1
          exact ⟨ihrole.trans hrole, hnext.trans ihnext, fun _ => hahead.mono ihrole ihnext, ihahead⟩

theorem ahead_skip (s : KeySource) {used : List Key} {bare : Nat → Bool} {i : Nat} {k : Key}
    (hk : used[i]? = some k) (hbare : bare i = false) : (s.skip used bare).Ahead k :=
  (foldl_skipUnless_spec bare s used.zipIdx).2.2 (k, i) (List.mem_zipIdx_iff_getElem?.2 hk) hbare

end KeySource

/-! ## One constraint more -/

/-- What a call hands over to add a constraint; without a key the program picks one. -/
structure Addition (K : Type) where
  kind : ConstraintKind
  terms : Keyed (Nested K)
  b : Nested K
  dual : Option Key

theorem Inequality.dual_of_ofArrays {K : Type} [Scalar K] {terms : Keyed (Nested K)} {b : Nested K}
    {k : Key} {f : Inequality K} (h : Inequality.ofArrays terms b k = .ok f) : f.dual = k := by
  obtain ⟨_, _, h⟩ := bind_eq_ok.1 h
  obtain ⟨_, _, h⟩ := bind_eq_ok.1 h
  split at h
  · unfold Inequality.make at h
    split at h
    · cases h
    · exact (Except.ok.inj h) ▸ rfl
  · cases h

namespace Problem

variable {K : Type}

/-- The multiplier keys of all constraints of one kind, in order of arrival. -/
def duals (p : Problem K) : ConstraintKind → List Key
  | .equality => p.equalities.map (·.dual)
  | .inequality => p.inequalities.map (·.dual)

def source (p : Problem K) : ConstraintKind → KeySource
  | .equality => p.equalityKeys
  | .inequality => p.inequalityKeys

variable [Scalar K]

def add (p : Problem K) (c : Addition K) : Problem K × Except (Fault K) Nat :=
  match c.kind with
  | .equality => p.addEquality c.terms c.b c.dual
  | .inequality => p.addInequality c.terms c.b c.dual

/-- The program after a sequence of calls, taken or refused. -/
def addAll (p : Problem K) (cs : List (Addition K)) : Problem K := cs.foldl (fun p c => (p.add c).1) p

/-- One of the calls brings this key along and is taken. -/
def Brings (p : Problem K) (kind : ConstraintKind) (k : Key) : List (Addition K) → Prop
  | [] => False
  | c :: cs =>
    (c.kind = kind ∧ c.dual = some k ∧ ∃ i, (p.add c).2 = .ok i) ∨ Brings (p.add c).1 kind k cs

/-! ## What a call changes -/

theorem source_add (p : Problem K) (c : Addition K) (kind : ConstraintKind) :
    (p.add c).1.source kind =
      if kind = c.kind then (nameDual (p.source kind) c.dual).2 else p.source kind := by
  obtain ⟨added, terms, b, dual⟩ := c
  cases added <;> cases kind <;> simp only [add, addEquality, addInequality, source] <;> split <;> rfl

/-- A call is refused and leaves the constraints as they are, or appends one with the key it got. -/
theorem add_cases (p : Problem K) (c : Addition K) :
    (∃ e, (p.add c).2 = .error e ∧ (p.add c).1.duals c.kind = p.duals c.kind) ∨
      ((p.add c).2 = .ok (p.duals c.kind).length ∧
        (p.add c).1.duals c.kind =
          p.duals c.kind ++ [(nameDual (p.source c.kind) c.dual).1]) := by
  obtain ⟨kind, terms, b, dual⟩ := c
  cases kind with
  | equality =>
      simp only [add, addEquality, source]
      cases h : Equality.ofArrays terms b (nameDual p.equalityKeys dual).1 with
      | error e => exact .inl ⟨e, rfl, rfl⟩
      | ok f =>
          obtain ⟨_, _, hf⟩ := bind_eq_ok.1 h
          obtain rfl := pure_eq_ok.1 hf
          exact .inr ⟨by simp [duals], by simp [duals]⟩
  | inequality =>
      simp only [add, addInequality, source]
      cases h : Inequality.ofArrays terms b (nameDual p.inequalityKeys dual).1 with
      | error e => exact .inl ⟨e, rfl, rfl⟩
      | ok f => exact .inr ⟨by simp [duals], by simp [duals, Inequality.dual_of_ofArrays h]⟩

theorem duals_add_of_ne (p : Problem K) {c : Addition K} {kind : ConstraintKind} (h : kind ≠ c.kind) :
    (p.add c).1.duals kind = p.duals kind := by
  obtain ⟨added, terms, b, dual⟩ := c
  cases added <;> cases kind <;> first | exact absurd rfl h | skip
  all_goals simp only [add, addEquality, addInequality, duals]; split <;> rfl

theorem mem_duals_add {p : Problem K} {kind : ConstraintKind} {k : Key} (h : k ∈ p.duals kind)
    (c : Addition K) : k ∈ (p.add c).1.duals kind := by
  by_cases hkind : kind = c.kind
  · subst hkind
    rcases p.add_cases c with ⟨_, _, hd⟩ | ⟨_, hd⟩
    · exact hd ▸ h
    · exact hd ▸ List.mem_append_left _ h
  · exact p.duals_add_of_ne hkind ▸ h

theorem mem_duals_addAll {p : Problem K} {kind : ConstraintKind} {k : Key} (h : k ∈ p.duals kind)
    (cs : List (Addition K)) : k ∈ (p.addAll cs).duals kind := by
  induction cs generalizing p with
  | nil => exact h
  | cons c cs ih => exact ih (mem_duals_add h c)

theorem mem_duals_of_brings {p : Problem K} {kind : ConstraintKind} {k : Key} {cs : List (Addition K)}
    (h : p.Brings kind k cs) : k ∈ (p.addAll cs).duals kind := by
  induction cs generalizing p with
  | nil => exact h.elim
  | cons c cs ih =>
      rcases h with ⟨rfl, hdual, i, hi⟩ | h
      · refine mem_duals_addAll (p := (p.add c).1) ?_ cs
        rcases p.add_cases c with ⟨_, he, _⟩ | ⟨_, hd⟩
        · rw [hi] at he
          cases he
        · rw [hd, hdual]
          exact List.mem_append_right _ (List.mem_singleton_self k)
      · exact ih h

/-! ## The counter along a sequence of calls -/

/-- The counter of a kind is ahead of its keys, up to those of a given set. -/
def AheadExcept (p : Problem K) (kind : ConstraintKind) (E : Key → Prop) : Prop :=
  ∀ k ∈ p.duals kind, (p.source kind).Ahead k ∨ E k

theorem ahead_nameDual {s : KeySource} {k : Key} (h : s.Ahead k) (dual : Option Key) :
    (nameDual s dual).2.Ahead k := by
  cases dual with
  | some _ => exact h
  | none => exact h.mono rfl (Int.le_of_lt (Int.lt_succ s.next))

theorem AheadExcept.add {p : Problem K} {kind : ConstraintKind} {E : Key → Prop}
    (h : p.AheadExcept kind E) (c : Addition K) :
    (p.add c).1.AheadExcept kind fun k =>
      E k ∨ (c.kind = kind ∧ c.dual = some k ∧ ∃ i, (p.add c).2 = .ok i) := by
  intro k hk
  rw [source_add]
  by_cases hkind : kind = c.kind
  · subst hkind
    rw [if_pos rfl]
    have hold : k ∈ p.duals c.kind →
        (nameDual (p.source c.kind) c.dual).2.Ahead k ∨ E k := fun hk =>
      (h k hk).imp_left fun ha => ahead_nameDual ha c.dual
    rcases p.add_cases c with ⟨_, _, hd⟩ | ⟨hi, hd⟩
    · exact (hold (hd ▸ hk)).imp_right .inl
    · rw [hd, List.mem_append, List.mem_singleton] at hk
      rcases hk with hk | rfl
      · exact (hold hk).imp_right .inl
      · cases hdual : c.dual with
        | none => exact .inl (KeySource.ahead_fresh _)
        | some j => exact .inr (.inr ⟨rfl, rfl, _, hi⟩)
  · rw [if_neg hkind]
    exact (h k (p.duals_add_of_ne hkind ▸ hk)).imp_right .inl

theorem AheadExcept.addAll {p : Problem K} {kind : ConstraintKind} {E : Key → Prop}
    (h : p.AheadExcept kind E) (cs : List (Addition K)) :
    (p.addAll cs).AheadExcept kind fun k => E k ∨ p.Brings kind k cs := by
  induction cs generalizing p E with
  | nil => exact fun k hk => (h k hk).imp_right .inl
  | cons c cs ih =>
      intro k hk
      refine (ih (h.add c) k hk).imp_right ?_
      rintro ((hE | hc) | hcs)
      · exact .inl hE
      · exact .inr (.inl hc)
      · exact .inr (.inr hcs)

/-- A constraint of the given kind that the program began with has this key as a bare pair. -/
def Conceals (p : Problem K) (bare : ConstraintKind → Nat → Bool) (kind : ConstraintKind) (k : Key) :
    Prop :=
  ∃ i, (p.duals kind)[i]? = some k ∧ bare kind i = true

omit [Scalar K] in
theorem aheadExcept_make (cost : Cost K) (es : List (Equality K)) (fs : List (Inequality K))
    (bare : ConstraintKind → Nat → Bool) (kind : ConstraintKind) :
    (make cost es fs bare).AheadExcept kind ((make cost es fs bare).Conceals bare kind) := by
  intro k hk
  obtain ⟨i, hi⟩ := List.mem_iff_getElem?.1 hk
  cases hbare : bare kind i with
  | true => exact .inr ⟨i, hi, hbare⟩
  | false =>
      refine .inl ?_
      cases kind <;> exact KeySource.ahead_skip _ hi hbare

/--
A call without a key repeats one exactly if an earlier call brought that one along itself, or if the
program began with it as a bare pair.
-/
theorem automatic_key (cost : Cost K) (es : List (Equality K)) (fs : List (Inequality K))
    (bare : ConstraintKind → Nat → Bool) (cs : List (Addition K)) {c : Addition K}
    (hdual : c.dual = none) {i : Nat}
    (h : (((make cost es fs bare).addAll cs).add c).2 = .ok i) :
    ∃ k, (((make cost es fs bare).addAll cs).add c).1.duals c.kind =
        ((make cost es fs bare).addAll cs).duals c.kind ++ [k] ∧
      (k ∈ ((make cost es fs bare).addAll cs).duals c.kind ↔
        (make cost es fs bare).Brings c.kind k cs ∨
          (make cost es fs bare).Conceals bare c.kind k) := by
  have hahead := (aheadExcept_make cost es fs bare c.kind).addAll cs
  rcases ((make cost es fs bare).addAll cs).add_cases c with ⟨_, he, _⟩ | ⟨_, hd⟩
  · rw [h] at he
    cases he
  · rw [hdual] at hd
    refine ⟨_, hd, fun hk => ?_, ?_⟩
    · rcases hahead _ hk with hfresh | hconceals | hbrings
      · exact absurd hfresh (KeySource.not_ahead_fresh _)
      · exact .inr hconceals
      · exact .inl hbrings
    · rintro (hbrings | ⟨j, hj, _⟩)
      · exact mem_duals_of_brings hbrings
      · exact mem_duals_addAll (List.mem_of_getElem? hj) cs

/-! ## Keys that come along and keys that are picked -/

/-- The equality `x = b`. -/
def pin (b : ℝ) (dual : Option Key) : Addition ℝ where
  kind := .equality
  terms := .ofList [(.text "x", .list [.scalar 1])]
  b := .scalar b
  dual := dual

/-- A constraint that the program begins with, under the bare pair of `eq` and zero. -/
noncomputable def paired : Equality ℝ where
  terms := .ofList [(.text "x", .identity 1)]
  b := [0]
  rows_eq := List.forall_mem_singleton.2 rfl
  dual := .dual "eq" 0

/-- The first automatic key repeats a bare pair, the second the key that a call brought along. -/
theorem automatic_key_second :
    let bare := fun kind i => kind = ConstraintKind.equality && i = 0
    let start := make (.quadratic []) [paired] [] bare
    let cs := [pin 1 (some (.dual "eq" 1)), pin 2 none]
    let p := start.addAll cs
    (pin 3 none).dual = none ∧ (p.add (pin 3 none)).2 = .ok 3 ∧
      p.duals .equality = [.dual "eq" 0, .dual "eq" 1, .dual "eq" 0] ∧
      (p.add (pin 3 none)).1.duals .equality = p.duals .equality ++ [.dual "eq" 1] ∧
      (start.Brings .equality (.dual "eq" 1) cs ∨
        start.Conceals bare .equality (.dual "eq" 1)) := by
  intro bare start cs p
  obtain ⟨k, hk, hrepeats⟩ :=
    automatic_key (.quadratic []) [paired] [] bare cs (c := pin 3 none) rfl (i := 3) rfl
  have hkey : p.duals .equality ++ [.dual "eq" 1] = p.duals .equality ++ [k] := hk
  cases List.append_cancel_left hkey
  exact ⟨rfl, rfl, rfl, rfl, hrepeats.1 (.tail _ (.head _))⟩

/-- The very first automatic key may be in use. -/
theorem automatic_key_in_use :
    let p := (make (.quadratic []) [] []).addAll [pin 1 (some (.dual "eq" 0))]
    (pin 2 none).dual = none ∧ (p.add (pin 2 none)).2 = .ok 1 ∧
      (p.add (pin 2 none)).1.duals .equality = p.duals .equality ++ [.dual "eq" 0] ∧
      .dual "eq" 0 ∈ p.duals .equality :=
  ⟨rfl, rfl, rfl, List.mem_singleton_self _⟩

end Problem

end ActiveSet
