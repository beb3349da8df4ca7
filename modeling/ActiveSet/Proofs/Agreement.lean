import ActiveSet.Proofs.Iterations

/-!
# Computations that match

Nothing that an iteration reads from a point depends on the order of its keys. So two methods that
answer alike at points with the same vectors make the same steps: their runs match state by state
and end alike.
-/

namespace ActiveSet

/-! ## The same values by key -/

/-- The same value at every key; the keys may come in another order. -/
def Keyed.Same {α : Type} (m n : Keyed α) : Prop := ∀ k, m.lookup k = n.lookup k

namespace Keyed.Same

variable {α : Type} {m n : Keyed α}

theorem refl (m : Keyed α) : m.Same m := fun _ => rfl

theorem symm (h : m.Same n) : n.Same m := fun k => (h k).symm

theorem mem_keys_iff (h : m.Same n) {k : Key} : k ∈ m.keys ↔ k ∈ n.keys := by
  rw [Keyed.mem_keys_iff, Keyed.mem_keys_iff, h k]

theorem perm_keys (h : m.Same n) : m.keys.Perm n.keys :=
  (List.perm_ext_iff_of_nodup m.nodup_keys n.nodup_keys).2 fun _ => h.mem_keys_iff

theorem perm_entries (h : m.Same n) : m.entries.Perm n.entries := by
  refine (List.perm_ext_iff_of_nodup (m.nodup.of_map _) (n.nodup.of_map _)).2 fun e => ?_
  rw [← Keyed.lookup_iff, ← Keyed.lookup_iff, h e.1]

theorem map {β : Type} (h : m.Same n) (f : α → β) : (m.map f).Same (n.map f) := by
  intro k
  rw [Keyed.lookup_map, Keyed.lookup_map, h k]

theorem get (h : m.Same n) (k : Key) : (m.get k : Except (Fault ℝ) α) = n.get k := by
  rw [Keyed.get, Keyed.get, h k]

end Keyed.Same

/-! ## Matching results -/

/-- Faults of one class; what they name may differ where it depends on an order. -/
inductive Fault.Alike : Fault ℝ → Fault ℝ → Prop
  | refl (fault : Fault ℝ) : Alike fault fault
  | dimension (cause cause' : Mismatch) : Alike (.dimension cause) (.dimension cause')
  | missingKey (key key' : Key) : Alike (.missingKey key) (.missingKey key')
  | singular (keys rank size keys' rank' size' : Nat) :
      Alike (.singular keys rank size) (.singular keys' rank' size')

theorem Fault.Alike.trans {a b c : Fault ℝ} (hab : a.Alike b) (hbc : b.Alike c) : a.Alike c := by
  cases hab with
  | refl => exact hbc
  | dimension => cases hbc <;> constructor
  | missingKey => cases hbc <;> constructor
  | singular => cases hbc <;> constructor

/-- Two computations have related results, or fail with faults of one class. -/
inductive Matches {α β : Type} (R : α → β → Prop) :
    Except (Fault ℝ) α → Except (Fault ℝ) β → Prop
  | ok {a : α} {b : β} (h : R a b) : Matches R (.ok a) (.ok b)
  | error {e e' : Fault ℝ} (h : e.Alike e') : Matches R (.error e) (.error e')

/-- The second list is the first in another order, with related entries for its entries. -/
def Rearranged {α β : Type} (R : α → β → Prop) (l : List α) (r : List β) : Prop :=
  ∃ l', l.Perm l' ∧ List.Forall₂ R l' r

namespace Matches

variable {α β γ δ : Type} {R : α → β → Prop} {S : γ → δ → Prop}

theorem of_eq {x y : Except (Fault ℝ) α} {T : α → α → Prop} (hT : ∀ a, T a a) (h : x = y) :
    Matches T x y := by
  subst h
  cases x with
  | ok a => exact .ok (hT a)
  | error e => exact .error (.refl e)

theorem bind {x : Except (Fault ℝ) α} {y : Except (Fault ℝ) β} (h : Matches R x y)
    {f : α → Except (Fault ℝ) γ} {g : β → Except (Fault ℝ) δ}
    (hfg : ∀ a b, x = .ok a → R a b → Matches S (f a) (g b)) :
    Matches S (x >>= f) (y >>= g) := by
  cases h with
  | ok h => exact hfg _ _ rfl h
  | error h => exact .error h

theorem bind_of_eq {x y : Except (Fault ℝ) α} (h : x = y) {f : α → Except (Fault ℝ) γ}
    {g : α → Except (Fault ℝ) δ} (hfg : ∀ a, x = .ok a → Matches S (f a) (g a)) :
    Matches S (x >>= f) (y >>= g) := by
  refine (of_eq (T := Eq) (fun _ => rfl) h).bind fun a b ha hab => ?_
  subst hab
  exact hfg a ha

theorem mono {T : α → β → Prop} {x : Except (Fault ℝ) α} {y : Except (Fault ℝ) β}
    (h : Matches R x y) (hT : ∀ a b, R a b → T a b) : Matches T x y := by
  cases h with
  | ok h => exact .ok (hT _ _ h)
  | error h => exact .error h

theorem results {x : Except (Fault ℝ) α} {y : Except (Fault ℝ) β} (h : Matches R x y) :
    (∃ a b, x = .ok a ∧ y = .ok b ∧ R a b) ∨
      ∃ e e', x = .error e ∧ y = .error e' ∧ e.Alike e' := by
  cases h with
  | ok h => exact .inl ⟨_, _, rfl, rfl, h⟩
  | error h => exact .inr ⟨_, _, rfl, rfl, h⟩

theorem exists_ok {x : Except (Fault ℝ) α} {y : Except (Fault ℝ) β} (h : Matches R x y) {a : α}
    (hx : x = .ok a) : ∃ b, y = .ok b ∧ R a b := by
  cases h with
  | ok h =>
      obtain rfl := Except.ok.inj hx
      exact ⟨_, rfl, h⟩
  | error => cases hx

private theorem forall₂_of_common {P : γ → α → Prop} {Q : γ → β → Prop} {l : List γ} {r : List α}
    {r' : List β} (hr : List.Forall₂ P l r) (hr' : List.Forall₂ Q l r')
    (h : ∀ c ∈ l, ∀ a b, P c a → Q c b → R a b) : List.Forall₂ R r r' := by
  induction hr generalizing r' with
  | nil =>
      cases hr'
      exact .nil
  | cons ha _ ih =>
      cases hr' with
      | cons hb hr' =>
          exact .cons (h _ (.head _) _ _ ha hb) (ih hr' fun c hc => h c (.tail _ hc))

/-- Over lists in different orders, if all faults that are possible are of one class. -/
theorem mapM {f : γ → Except (Fault ℝ) α} {g : γ → Except (Fault ℝ) β} {l l' : List γ}
    (hl : l.Perm l') (h : ∀ c ∈ l, Matches R (f c) (g c))
    (hone : ∀ c ∈ l, ∀ d ∈ l, ∀ e e', f c = .error e → f d = .error e' → e.Alike e') :
    Matches (Rearranged R) (l.mapM f) (l'.mapM g) := by
  cases hf : l.mapM f with
  | ok r =>
      rw [mapM_eq_ok] at hf
      obtain ⟨r', hr'⟩ : ∃ r', l'.mapM g = .ok r' := by
        refine mapM_ok fun c hc => ?_
        obtain ⟨a, _, ha⟩ := exists_of_mem_left hf (hl.mem_iff.2 hc)
        obtain ⟨b, hb, _⟩ := (h c (hl.mem_iff.2 hc)).exists_ok ha
        exact ⟨b, hb⟩
      obtain ⟨r₀, hr₀, hperm⟩ := List.perm_comp_forall₂ hl.symm hf
      rw [hr']
      refine .ok ⟨r₀, hperm.symm, forall₂_of_common hr₀ (mapM_eq_ok.1 hr') fun c hc a b ha hb => ?_⟩
      obtain ⟨b', hb', hR⟩ := (h c (hl.mem_iff.2 hc)).exists_ok ha
      cases hb.symm.trans hb'
      exact hR
  | error e =>
      obtain ⟨c, hc, hfc⟩ := mapM_eq_error hf
      cases hg : l'.mapM g with
      | ok r' =>
          obtain ⟨b, _, hb⟩ := exists_of_mem_left (mapM_eq_ok.1 hg) (hl.mem_iff.1 hc)
          have hmatch := h c hc
          rw [hfc, hb] at hmatch
          cases hmatch
      | error e' =>
          -- Each order meets its own first fault, so the two may come from different entries.
          obtain ⟨d, hd, hgd⟩ := mapM_eq_error hg
          have hd := hl.mem_iff.2 hd
          rcases (h d hd).results with ⟨a, b, _, hb, _⟩ | ⟨e₁, e₂, hfd, he₂, halike⟩
          · cases hgd.symm.trans hb
          · obtain rfl := Except.error.inj (hgd.symm.trans he₂)
            exact .error ((hone c hc d hd e e₁ hfc hfd).trans halike)

end Matches

namespace Rearranged

variable {α β : Type} {R : α → β → Prop} {l : List α} {r : List β}

theorem perm {l r : List α} (h : Rearranged Eq l r) : l.Perm r := by
  obtain ⟨l', hl, hr⟩ := h
  rw [List.forall₂_eq_eq_eq] at hr
  exact hr ▸ hl

theorem of_perm {l r : List α} {T : α → α → Prop} (hT : ∀ a, T a a) (h : l.Perm r) :
    Rearranged T l r :=
  ⟨r, h, List.forall₂_same.2 fun a _ => hT a⟩

theorem exists_of_mem_left (h : Rearranged R l r) {a : α} (ha : a ∈ l) : ∃ b ∈ r, R a b := by
  obtain ⟨l', hl, hr⟩ := h
  exact ActiveSet.exists_of_mem_left hr (hl.mem_iff.1 ha)

theorem exists_of_mem_right (h : Rearranged R l r) {b : β} (hb : b ∈ r) : ∃ a ∈ l, R a b := by
  obtain ⟨l', hl, hr⟩ := h
  obtain ⟨a, ha, hR⟩ := ActiveSet.exists_of_mem_right hr hb
  exact ⟨a, hl.mem_iff.2 ha, hR⟩

theorem filter (h : Rearranged R l r) {p : α → Bool} {q : β → Bool}
    (hpq : ∀ a b, R a b → p a = q b) : Rearranged R (l.filter p) (r.filter q) := by
  obtain ⟨l', hl, hr⟩ := h
  exact ⟨l'.filter p, hl.filter p,
    List.rel_filter (fun a b hab => Bool.eq_iff_iff.1 (hpq a b hab)) hr⟩

theorem sum_map (h : Rearranged R l r) {F : α → ℝ} {G : β → ℝ} (hFG : ∀ a b, R a b → F a = G b) :
    (l.map F).sum = (r.map G).sum := by
  obtain ⟨l', hl, hr⟩ := h
  have hmap : l'.map F = r.map G := by
    rw [← List.forall₂_eq_eq_eq, List.forall₂_map_left_iff, List.forall₂_map_right_iff]
    exact hr.imp hFG
  rw [(hl.map F).sum_eq, hmap]

end Rearranged

/-! ## What is read from a point -/

section Reading

variable {x y p q : Point ℝ}

theorem Point.part_congr (h : x.Same y) (k : Key) : x.part k = y.part k := by
  rw [part, part, h k]

theorem Factor.defect_congr (h : x.Same y) (f : Factor ℝ) : f.defect x = f.defect y := by
  simp only [defect, values, rowValue, Point.part_congr h]

theorem Point.norm_congr (h : x.Same y) : norm x = norm y := by
  rw [norm_eq_sqrt, norm_eq_sqrt, (h.perm_entries.map _).sum_eq]

theorem Point.Fills.congr {dims dims' : Keyed Nat} (hd : dims.Same dims') (h : x.Same y)
    (hx : Fills dims x) : Fills dims' y := by
  intro k n hn
  rw [← h k]
  exact hx k n ((hd k).trans hn)

theorem Point.add_matches (hx : x.Same y) (hp : p.Same q) :
    Matches Keyed.Same (add x p) (add y q) := by
  have hsum : ∀ z z', add x p = .ok z → add y q = .ok z' → z.Same z' := by
    intro z z' hz hz' k
    rw [(lookup_addScaled hz).2, (lookup_addScaled hz').2, hx k, hp k]
  cases hz : add x p with
  | ok z =>
      have hconforms : y.Conforms q := fun k u v hu hv =>
        (lookup_addScaled hz).1 k u v ((hx k).trans hu) ((hp k).trans hv)
      obtain ⟨z', hz'⟩ := exists_addScaled hconforms 1
      have hz' : add y q = .ok z' := hz'
      rw [hz']
      exact .ok (hsum z z' hz hz')
  | error e =>
      obtain ⟨c, rfl⟩ := addScaled_eq_error hz
      cases hz' : add y q with
      | ok z' =>
          have hconforms : x.Conforms p := fun k u v hu hv =>
            (lookup_addScaled hz').1 k u v ((hx k).symm.trans hu) ((hp k).symm.trans hv)
          obtain ⟨z, hz''⟩ := exists_addScaled hconforms 1
          cases hz.symm.trans hz''
      | error e' =>
          obtain ⟨c', rfl⟩ := addScaled_eq_error hz'
          exact .error (.dimension c c')

theorem Factor.residual_congr (h : x.Same y) (f : Factor ℝ) : f.residual x = f.residual y := by
  have hadd : addProduct x = addProduct y := by
    funext acc e
    rw [addProduct, addProduct, h e.1]
  rw [residual, residual, product, product, hadd]

theorem Factor.shifted_congr (h : x.Same y) (f : Factor ℝ) : f.shifted x = f.shifted y := by
  rw [shifted, shifted, f.residual_congr h]

theorem Equality.shifted_congr (h : x.Same y) (f : Equality ℝ) : f.shifted x = f.shifted y := by
  rw [shifted, shifted, f.toFactor.shifted_congr h]

theorem Inequality.product_congr (h : x.Same y) (f : Inequality ℝ) : f.product x = f.product y := by
  have hadd : addProduct x = addProduct y := by
    funext acc e
    rw [addProduct, addProduct, h e.1]
  rw [product, product, hadd]

theorem Inequality.excess_congr (h : x.Same y) (f : Inequality ℝ) : f.excess x = f.excess y := by
  rw [excess, excess, f.product_congr h]

theorem Inequality.violations_congr (h : x.Same y) (fs : List (Inequality ℝ)) :
    violations fs x = violations fs y := by
  simp only [violations, fun f : Inequality ℝ => f.excess_congr h]

theorem WorkingSet.blocking_congr (hx : x.Same y) (hp : p.Same q) (w : WorkingSet ℝ) (cap : Cap ℝ) :
    w.blocking x p cap = w.blocking y q cap := by
  have hblock : block cap x p = block cap y q := by
    funext known e
    rw [block, block, e.1.product_congr hx, e.1.product_congr hp]
  rw [blocking, blocking, hblock]

theorem WorkingSet.seed_congr (h : x.Same y) (fs : List (Inequality ℝ)) (duals : Option (Point ℝ))
    (tol : ℝ) : seed fs x duals tol = seed fs y duals tol := by
  have htight : (fun f : Inequality ℝ => f.isTight x tol) = fun f => f.isTight y tol := by
    funext f
    rw [Inequality.isTight, Inequality.isTight, f.excess_congr h]
  simp only [seed, htight]

theorem Point.multiplier_congr (h : x.Same y) (k : Key) : multiplier x k = multiplier y k := by
  rw [multiplier, multiplier, h.get]

theorem LeavingRule.largestMultiplier_congr (h : x.Same y) (w : WorkingSet ℝ) :
    largestMultiplier w x = largestMultiplier w y :=
  largestMultiplier_eq_of_active rfl fun e _ => h e.1.dual

end Reading

/-! ## States and runs -/

/-- One state but for the order of the keys in its points. -/
structure State.Same (s t : State ℝ) : Prop where
  values : s.values.Same t.values
  duals : s.duals.Same t.duals
  workingSet_eq : s.workingSet = t.workingSet
  iterations_eq : s.iterations = t.iterations
  phase_eq : s.phase = t.phase
  alpha_eq : s.alpha = t.alpha

theorem State.Same.hasConverged {s t : State ℝ} (h : s.Same t) :
    s.hasConverged = t.hasConverged := by
  rw [State.hasConverged, State.hasConverged, h.phase_eq]

/-- Ends of one kind, at the same states or with faults of one class. -/
inductive Ending.Alike : Ending ℝ → Ending ℝ → Prop
  | converged {s t : State ℝ} (h : s.Same t) : Alike (.converged s) (.converged t)
  | exhausted {s t : State ℝ} (h : s.Same t) : Alike (.exhausted s) (.exhausted t)
  | cycled {s t : State ℝ} (h : s.Same t) : Alike (.cycled s) (.cycled t)
  | failed {e e' : Fault ℝ} (h : e.Alike e') : Alike (.failed e) (.failed e')

/-- Runs through the same states that end alike. -/
structure Run.Alike (r r' : Run ℝ) : Prop where
  states : List.Forall₂ State.Same r.states r'.states
  ending : r.ending.Alike r'.ending

/-- Methods that answer alike wherever `P` holds of a working set and a point. -/
structure Method.Alike (P : WorkingSet ℝ → Point ℝ → Prop) (m m' : Method ℝ) : Prop where
  settings_eq : m.settings = m'.settings
  cap_eq : m.cap = m'.cap
  direction : ∀ {w x y}, P w x → x.Same y →
    Matches Keyed.Same (m.direction w x) (m'.direction w y)
  multipliers : ∀ {w x y p}, P w x → x.Same y → m.direction w x = .ok p →
    Matches Keyed.Same (m.multipliers w x) (m'.multipliers w y)
  leaving : ∀ w {x y}, x.Same y → m.leaving w x = m'.leaving w y

namespace Method

variable {P : WorkingSet ℝ → Point ℝ → Prop} {m m' : Method ℝ} {s t : State ℝ} {p q : Point ℝ}

private theorem move_matches (h : s.Same t) (hp : p.Same q) (a : ℝ) (phase : Phase ℝ) :
    Matches State.Same (move s p a phase) (move t q a phase) := by
  refine (Point.add_matches h.values (hp.map (Vec.scale a))).bind fun x y _ hxy => .ok ?_
  exact ⟨hxy, h.duals, h.workingSet_eq, congrArg (· + 1) h.iterations_eq, rfl, rfl⟩

private theorem Alike.release (h : Alike P m m') (hst : s.Same t) (hs : P s.workingSet s.values)
    (hp : m.direction s.workingSet s.values = .ok p) :
    Matches State.Same (m.release s) (m'.release t) := by
  have hduals := h.multipliers hs hst.values hp
  rw [hst.workingSet_eq] at hduals
  rw [Method.release, Method.release, hst.workingSet_eq]
  refine hduals.bind fun d e _ hde => .bind_of_eq (h.leaving _ hde) fun leaving _ => ?_
  cases leaving with
  | none =>
      exact .ok ⟨hst.values, hde, rfl, congrArg (· + 1) hst.iterations_eq, rfl, rfl⟩
  | some ix =>
      refine .bind_of_eq rfl fun w _ => .bind_of_eq rfl fun f _ => ?_
      refine .bind_of_eq (Point.multiplier_congr hde f.dual) fun a _ => .ok ?_
      exact ⟨hst.values, hde, rfl, congrArg (· + 1) hst.iterations_eq, rfl, rfl⟩

private theorem Alike.advance (h : Alike P m m') (hst : s.Same t) (hp : p.Same q) :
    Matches State.Same (m.advance s p) (m'.advance t q) := by
  rw [Method.advance, Method.advance, h.cap_eq, hst.workingSet_eq]
  refine .bind_of_eq (WorkingSet.blocking_congr hst.values hp _ _) fun blocking _ => ?_
  rcases blocking with _ | ⟨ratio, ix⟩
  · cases m'.cap with
    | unlimited =>
        rw [Point.norm_congr hp]
        exact .error (.refl _)
    | «at» c => exact move_matches hst hp _ _
  · refine (move_matches hst hp _ _).bind fun u v _ huv => .bind_of_eq rfl fun w _ => .ok ?_
    exact ⟨huv.values, huv.duals, rfl, huv.iterations_eq, huv.phase_eq, huv.alpha_eq⟩

theorem Alike.iterate (h : Alike P m m') (hst : s.Same t) (hs : P s.workingSet s.values) :
    Matches State.Same (m.iterate s) (m'.iterate t) := by
  have hdirection := h.direction hs hst.values
  rw [hst.workingSet_eq] at hdirection
  rw [Method.iterate, Method.iterate, hst.workingSet_eq]
  refine hdirection.bind fun p q hp hpq => ?_
  rw [Point.norm_congr hpq, h.settings_eq]
  split
  · exact h.release hst hs (hst.workingSet_eq ▸ hp)
  · exact h.advance hst hpq

theorem Alike.runFrom (h : Alike P m m')
    (hP : ∀ s t, P s.workingSet s.values → m.iterate s = .ok t → P t.workingSet t.values)
    (budget : Nat) (seen : List (List Nat)) (hst : s.Same t) (hs : P s.workingSet s.values) :
    (m.runFrom budget seen s).Alike (m'.runFrom budget seen t) := by
  induction budget generalizing seen s t with
  | zero =>
      rw [Method.runFrom, Method.runFrom, hst.hasConverged]
      split
      · exact ⟨.nil, .converged hst⟩
      · exact ⟨.nil, .exhausted hst⟩
  | succ budget ih =>
      rw [Method.runFrom, Method.runFrom, hst.hasConverged, h.settings_eq, hst.workingSet_eq]
      split
      · exact ⟨.nil, .converged hst⟩
      · dsimp only
        split
        · exact ⟨.nil, .cycled hst⟩
        · rcases (h.iterate hst hs).results with ⟨u, v, hu, hv, huv⟩ | ⟨e, e', he, he', halike⟩
          · have hmoved : u.hasMoved = v.hasMoved := by
              rw [State.hasMoved, State.hasMoved, huv.alpha_eq]
            have hrest := ih (if v.hasMoved then [] else t.workingSet.activeIndices :: seen) huv
              (hP s u hs hu)
            rw [hu, hv]
            dsimp only
            rw [hmoved]
            exact ⟨.cons huv hrest.states, hrest.ending⟩
          · rw [he, he']
            exact ⟨.nil, .failed halike⟩

end Method

end ActiveSet
