import ActiveSet.Proofs.Objectives
import ActiveSet.Proofs.OneVariable

/-!
# The shortest minimiser

What minimising a graph returns satisfies the constraints if anything does, has the least error of
all points that satisfy them, and is shorter than every other point of that error.
-/

namespace ActiveSet

/-! ## Points over an ordering -/

/-- The point holds a vector of the right dimension at every key of the ordering and nothing else. -/
structure Point.Over (x : Point ℝ) (ks : List Key) (D : Key → Nat) : Prop where
  keys_iff : ∀ k, k ∈ x.keys ↔ k ∈ ks
  length_eq : ∀ k v, x.lookup k = some v → v.length = D k

namespace Point

variable {x y : Point ℝ} {ks : List Key} {D : Key → Nat}

theorem Over.lookup_eq (h : x.Over ks D) {k : Key} (hk : k ∈ ks) : x.lookup k = some (x.part k) := by
  obtain ⟨v, hv⟩ := (Keyed.mem_keys_iff x).1 ((h.keys_iff k).2 hk)
  rw [part_of_lookup hv, hv]

theorem Over.length_part (h : x.Over ks D) {k : Key} (hk : k ∈ ks) : (x.part k).length = D k :=
  h.length_eq k _ (h.lookup_eq hk)

theorem Over.lookup_congr (hx : x.Over ks D) (hy : y.Over ks D)
    (h : ∀ k ∈ ks, y.part k = x.part k) (k : Key) : y.lookup k = x.lookup k := by
  by_cases hk : k ∈ ks
  · rw [hx.lookup_eq hk, hy.lookup_eq hk, h k hk]
  · rw [(Keyed.lookup_eq_none_iff x).2 fun hmem => hk ((hx.keys_iff k).1 hmem),
      (Keyed.lookup_eq_none_iff y).2 fun hmem => hk ((hy.keys_iff k).1 hmem)]

theorem Over.fits (h : x.Over ks D) {g : Graph ℝ} (hg : g.Agrees D) {f : Factor ℝ} (hf : f ∈ g) :
    f.Fits x :=
  fun e he v hv => (h.length_eq e.1 v hv).trans (hg f hf e he).symm

theorem Over.norm_mul_self (h : x.Over ks D) (hks : ks.Nodup) :
    norm x * norm x = (ks.map fun k => Vec.dot (x.part k) (x.part k)).sum := by
  rw [Point.norm_mul_self, ← Keyed.sum_lookup x hks (fun k hk => (h.keys_iff k).1 hk)
    fun _ v => Vec.dot v v]
  congr 1
  refine List.map_congr_left fun k hk => ?_
  rw [h.lookup_eq hk, Option.elim_some]

theorem dot_flat_sizedBy (hx : ∀ k ∈ ks, (x.part k).length = D k)
    (hy : ∀ k ∈ ks, (y.part k).length = D k) :
    Vec.dot (flat (Graph.sizedBy ks D) x) (flat (Graph.sizedBy ks D) y) =
      (ks.map fun k => Vec.dot (x.part k) (y.part k)).sum := by
  rw [flat, flat, Vec.dot_flatMap (by simp), Graph.sizedBy, List.map_map]
  congr 1
  refine List.map_congr_left fun k hk => ?_
  rw [Function.comp_apply, Vec.fit_eq_self (hx k hk), Vec.fit_eq_self (hy k hk)]

/-- A point is shorter than another one if it is orthogonal to what leads there. -/
theorem Over.norm_lt (hks : ks.Nodup) (hx : x.Over ks D) (hy : y.Over ks D)
    (horthogonal : (ks.map fun k => Vec.dot (Vec.sub (y.part k) (x.part k)) (x.part k)).sum = 0)
    (hne : ∃ k, y.lookup k ≠ x.lookup k) : norm x < norm y := by
  have hlen : ∀ k ∈ ks, (y.part k).length = (x.part k).length := fun k hk =>
    (hy.length_part hk).trans (hx.length_part hk).symm
  have hsplit : ∀ k ∈ ks, Vec.dot (y.part k) (y.part k) = Vec.dot (x.part k) (x.part k) +
      2 * Vec.dot (Vec.sub (y.part k) (x.part k)) (x.part k) +
      Vec.dot (Vec.sub (y.part k) (x.part k)) (Vec.sub (y.part k) (x.part k)) := by
    intro k hk
    rw [Vec.dot_sub_left (hlen k hk), Vec.dot_sub_left (hlen k hk), Vec.dot_sub_right (hlen k hk),
      Vec.dot_sub_right (hlen k hk), Vec.dot_comm (x.part k) (y.part k)]
    ring
  have hnorm : norm y * norm y = norm x * norm x + (ks.map fun k =>
      Vec.dot (Vec.sub (y.part k) (x.part k)) (Vec.sub (y.part k) (x.part k))).sum := by
    rw [hy.norm_mul_self hks, hx.norm_mul_self hks, List.map_congr_left hsplit, List.sum_map_add,
      List.sum_map_add, List.sum_map_mul_left, horthogonal, mul_zero, add_zero]
  have hpos : (ks.map fun k =>
      Vec.dot (Vec.sub (y.part k) (x.part k)) (Vec.sub (y.part k) (x.part k))).sum ≠ 0 := by
    intro hzero
    obtain ⟨k, hk⟩ := hne
    refine hk (hx.lookup_congr hy (fun j hj => ?_) k)
    exact Vec.eq_of_sub_eq_zeros (hlen j hj) (Vec.eq_zeros_of_sum_dot_self hzero j hj)
  have hnonneg : 0 ≤ (ks.map fun k =>
      Vec.dot (Vec.sub (y.part k) (x.part k)) (Vec.sub (y.part k) (x.part k))).sum := by
    refine List.sum_nonneg fun a ha => ?_
    obtain ⟨k, _, rfl⟩ := List.mem_map.1 ha
    exact Vec.dot_self_nonneg _
  have hlt : norm x * norm x < norm y * norm y := by
    rw [hnorm]
    exact lt_add_of_pos_right _ (lt_of_le_of_ne hnonneg hpos.symm)
  have hroot : 0 ≤ norm y := by
    rw [norm_eq_sqrt]
    exact Real.sqrt_nonneg _
  exact lt_of_mul_self_lt_mul_self₀ hroot hlt

end Point

/-! ## Minimising -/

namespace Graph

/-- Every row of every factor holds at the point. -/
def Satisfied (g : Graph ℝ) (x : Point ℝ) : Prop := ∀ f ∈ g, f.residual x = .ok (Vec.zeros f.rows)

theorem satisfied_iff {g : Graph ℝ} {x : Point ℝ} :
    g.Satisfied x ↔ (∀ f ∈ g, f.Fits x) ∧ g.values x = g.rhs := by
  rw [values_eq_rhs_iff]
  constructor
  · intro h
    refine ⟨fun f hf => (f.residual_eq_ok.1 (h f hf)).1, fun f hf => ?_⟩
    exact Vec.eq_of_sub_eq_zeros (f.length_values x) (f.residual_eq_ok.1 (h f hf)).2.symm
  · rintro ⟨hfits, hvalues⟩ f hf
    refine f.residual_eq_ok.2 ⟨hfits f hf, ?_⟩
    rw [Factor.defect, hvalues f hf, Vec.sub_self_eq_zeros]
    rfl

section Minimiser

variable {cost constraints : Graph ℝ} {ks : List Key} {D : Key → Nat} {p y : Point ℝ}

/-- The dimensions of an ordering as a map. -/
def dimsBy (ks : List Key) (D : Key → Nat) : Keyed Nat := Keyed.ofList (sizedBy ks D)

theorem entries_dimsBy (hks : ks.Nodup) : (dimsBy ks D).entries = sizedBy ks D :=
  Keyed.entries_ofList (by rwa [keys_sizedBy])

theorem part_between (hks : ks.Nodup) (hp : p.Over ks D) (hy : y.Over ks D) {k : Key} (hk : k ∈ ks) :
    (Point.between (dimsBy ks D) p y).part k = Vec.sub (y.part k) (p.part k) := by
  have hlookup : (dimsBy ks D).lookup k = some (D k) := by
    rw [Keyed.lookup_iff, entries_dimsBy hks]
    exact List.mem_map_of_mem (f := fun k => (k, D k)) hk
  rw [Point.between, Point.part_of_lookup (Point.lookup_along y p (-1) hlookup),
    Vec.fit_eq_self (hy.length_part hk), Vec.fit_eq_self (hp.length_part hk), Vec.sub_eq_add_neg',
    Vec.neg_eq_scale]

theorem Spans.over_of_dim (h : Spans p (sizedBy ks D)) (hdim : Point.totalDim (sizedBy ks D) ≠ 0) :
    p.Over ks D := by
  have hmem : ∀ k v, p.lookup k = some v → k ∈ ks ∧ v.length = D k := by
    intro k v hv
    obtain ⟨j, hj, heq⟩ := List.mem_map.1 (h.length_mem k v hv)
    obtain ⟨rfl, hlen⟩ := Prod.mk.inj heq
    exact ⟨hj, hlen.symm⟩
  refine ⟨fun k => ⟨fun hk => ?_, fun hk => ?_⟩, fun k v hv => (hmem k v hv).2⟩
  · obtain ⟨v, hv⟩ := (Keyed.mem_keys_iff p).1 hk
    exact (hmem k v hv).1
  · by_contra hnone
    have hsized : (k, D k) ∈ sizedBy ks D := List.mem_map_of_mem (f := fun k => (k, D k)) hk
    exact h.holds hdim _ hsized ((Keyed.lookup_eq_none_iff p).2 hnone)

/-- A least misfit is none where some point has none. -/
theorem Minimiser.values_eq_rhs {sized : List (Key × Nat)} (h : Minimiser cost constraints sized p)
    (hy : constraints.values y = constraints.rhs) : constraints.values p = constraints.rhs := by
  have hlen : (constraints.values p).length = constraints.rhs.length := by
    simp [values, rhs, List.length_flatMap, Factor.rows]
  have hp := h.compatible p
  have hy' := h.compatible y
  rw [hy] at hy'
  have hzero : Vec.dot (Vec.sub (constraints.values p) constraints.rhs)
      (Vec.sub (constraints.values p) constraints.rhs) = 0 := by
    rw [Vec.dot_sub_left hlen, hp, hy', sub_zero]
  exact Vec.eq_of_sub_eq_zeros hlen (Vec.eq_zeros_of_dot_self hzero)

variable {known : Keyed Nat}

theorem Consistent.over_dimsBy (h : Consistent cost constraints known ks D) :
    cost.Over (dimsBy ks D).entries ∧ constraints.Over (dimsBy ks D).entries := by
  rw [entries_dimsBy h.nodup]
  exact ⟨h.over_cost, h.over_constraints⟩

/-- Between two points that satisfy the constraints nothing of them changes. -/
theorem Consistent.values_between (h : Consistent cost constraints known ks D)
    (hp : constraints.values p = constraints.rhs) (hy : constraints.values y = constraints.rhs) :
    constraints.values (Point.between (dimsBy ks D) p y) = Vec.zeros constraints.rhs.length := by
  rw [values_eq_rhs_iff] at hp hy
  refine values_eq_zeros_iff.2 fun f hf => ?_
  rw [Factor.values_between (h.over_dimsBy.2 f hf), hp f hf, hy f hf, Vec.sub_self_eq_zeros]
  rfl

/-- A point that satisfies the constraints has no less error, and as much only if the cost is blind to
what leads there. -/
theorem Minimiser.least (h : Consistent cost constraints known ks D)
    (hmin : Minimiser cost constraints (sizedBy ks D) p)
    (hp : constraints.values p = constraints.rhs) (hy : constraints.values y = constraints.rhs)
    {a b : ℝ} (ha : cost.error p = .ok a) (hb : cost.error y = .ok b) :
    a ≤ b ∧ (b = a → cost.values (Point.between (dimsBy ks D) p y) = Vec.zeros cost.rhs.length) := by
  have hslope := hmin.stationary _ (h.values_between hp hy)
  rw [dot_values_sub] at hslope
  have hsplit := half_squares_between h.over_dimsBy.1 p y
  rw [hslope, add_zero, ← (error_eq_ok.1 ha).2, ← (error_eq_ok.1 hb).2] at hsplit
  have hsquares : ∀ c ∈ cost.map fun f => 0.5 * Vec.dot (f.values (Point.between (dimsBy ks D) p y))
      (f.values (Point.between (dimsBy ks D) p y)), 0 ≤ c := by
    intro c hc
    obtain ⟨f, _, rfl⟩ := List.mem_map.1 hc
    exact mul_nonneg (by norm_num) (Vec.dot_self_nonneg _)
  refine ⟨hsplit ▸ le_add_of_nonneg_right (List.sum_nonneg hsquares), fun heq => ?_⟩
  refine values_eq_zeros_iff.2 fun f hf => ?_
  have hzero := List.all_zero_of_le_zero_le_of_sum_eq_zero hsquares (by linarith)
    (List.mem_map_of_mem hf)
  have hdot := (mul_eq_zero.1 hzero).resolve_left (by norm_num)
  simpa using Vec.eq_zeros_of_dot_self hdot

theorem Minimiser.norm_lt (h : Consistent cost constraints known ks D)
    (hmin : Minimiser cost constraints (sizedBy ks D) p) (hp : p.Over ks D) (hy : y.Over ks D)
    (hcost : cost.values (Point.between (dimsBy ks D) p y) = Vec.zeros cost.rhs.length)
    (hcons : constraints.values (Point.between (dimsBy ks D) p y) =
      Vec.zeros constraints.rhs.length)
    (hne : ∃ k, y.lookup k ≠ p.lookup k) : Point.norm p < Point.norm y := by
  refine hp.norm_lt h.nodup hy ?_ hne
  have hpart := fun k hk => part_between (k := k) h.nodup hp hy hk
  have hshort := hmin.shortest _ hcost hcons
  rw [Point.dot_flat_sizedBy (fun k hk => ?_) fun k hk => hp.length_part hk,
    List.map_congr_left fun k hk => by rw [hpart k hk]] at hshort
  · exact hshort
  · rw [hpart k hk]
    simp [hp.length_part hk, hy.length_part hk]

end Minimiser

/-- What is asked of a minimiser under constraints. -/
structure Shortest (cost constraints : Graph ℝ) (ks : List Key) (D : Key → Nat) (p : Point ℝ) :
    Prop where
  fits : p.Over ks D
  satisfied : constraints.Satisfied p
  least : ∃ a, cost.error p = .ok a ∧
    ∀ y b, constraints.Satisfied y → cost.error y = .ok b → a ≤ b
  shorter : ∀ y, y.Over ks D → constraints.Satisfied y → cost.error y = cost.error p →
    (∃ k, y.lookup k ≠ p.lookup k) → Point.norm p < Point.norm y

/-- Where some point satisfies the constraints, minimising returns the shortest of the minimisers. -/
theorem minimize_shortest {kernels : Kernels ℝ} (hk : kernels.ExactLeastSquares)
    {cost constraints : Graph ℝ} {dims : Option (Keyed Nat)} {ks : List Key} {D : Key → Nat}
    (h : Consistent cost constraints (dims.getD .empty) ks D)
    (hdim : 0 < Point.totalDim (sizedBy ks D)) {x : Point ℝ} (hx : constraints.Satisfied x) :
    ∃ p, minimize kernels cost constraints (some ks) dims false = .ok p ∧
      Shortest cost constraints ks D p := by
  obtain ⟨p, hp⟩ : ∃ p, minimize kernels cost constraints (some ks) dims false = .ok p :=
    minimize_ok hk h rfl rfl
  obtain ⟨hmin, hspans⟩ := minimiser_of_minimize hk h rfl rfl hp
  have hover := hspans.over_of_dim hdim.ne'
  have hvalues := hmin.values_eq_rhs (satisfied_iff.1 hx).2
  have herror := error_eq_ok.2 ⟨fun f hf => hover.fits h.cost_agrees hf, rfl⟩
  refine ⟨p, hp, hover, satisfied_iff.2 ⟨fun f hf => hover.fits h.constraints_agree hf, hvalues⟩,
    ⟨_, herror, fun y b hy hb => ?_⟩, fun y hyover hy hsame hne => ?_⟩
  · exact (hmin.least h hvalues (satisfied_iff.1 hy).2 herror hb).1
  · have hvalues' := (satisfied_iff.1 hy).2
    have hblind := (hmin.least h hvalues hvalues' herror (hsame.trans herror)).2 rfl
    exact hmin.norm_lt h hover hyover hblind (h.values_between hvalues hvalues') hne

end Graph

namespace OneVariable

/-- The constraint that the inequality of `atMost` is tight. -/
noncomputable def pinned (a b : ℝ) : Factor ℝ := (atMost a b 0).toEquality.toFactor

/-- A key that no factor mentions. -/
def spare : Key := .text "spare"

/-- The dimensions of the two keys. -/
def twoDims (k : Key) : Nat := if k = key then 1 else 2

theorem consistent_pinned : Graph.Consistent [pull 5] [pinned 1 3, pinned 2 6]
    (.ofList [(spare, 2)]) [key, spare] twoDims where
  nodup := by decide
  cost_agrees := by
    refine List.forall_mem_singleton.2 fun e he => ?_
    cases he with
    | head => rfl
    | tail _ h => cases h
  constraints_agree := by
    have hpinned : ∀ a b, ∀ e ∈ (pinned a b).terms.entries, e.2.cols = twoDims e.1 := by
      intro a b e he
      cases he with
      | head => rfl
      | tail _ h => cases h
    exact List.forall_mem_cons.2 ⟨hpinned 1 3, List.forall_mem_singleton.2 (hpinned 2 6)⟩
  known_within := fun k d hd => by
    have hspare : ([(spare, 2)].map (·.1)).Nodup := List.nodup_singleton spare
    have hmem := (Keyed.lookup_ofList hspare).1 hd
    obtain ⟨rfl, rfl⟩ := Prod.mk.inj (List.mem_singleton.1 hmem)
    rfl
  covers := fun k hk => by
    have hkey : k = key := by
      rcases hk with ⟨f, hf, hk⟩ | ⟨f, hf, hk⟩
      · obtain rfl := List.mem_singleton.1 hf
        exact List.mem_singleton.1 hk
      · rcases List.mem_cons.1 hf with rfl | hf
        · exact List.mem_singleton.1 hk
        · obtain rfl := List.mem_singleton.1 hf
          exact List.mem_singleton.1 hk
    exact hkey ▸ List.mem_cons_self ..
  sized := fun k hk => by
    rcases List.mem_cons.1 hk with rfl | hk
    · exact .inr (.inl ⟨_, List.mem_singleton_self _, List.mem_singleton_self _⟩)
    · exact .inl hk

theorem satisfied_pinned : Graph.Satisfied [pinned 1 3, pinned 2 6] (point 3) := by
  have hpinned : ∀ a b, a * 3 = b → (pinned a b).residual (point 3) = .ok (Vec.zeros 1) := by
    intro a b hab
    refine (Factor.residual_eq_ok _).2 ⟨Inequality.fits_toEquality.2 (fits_atMost _ _ _ _), ?_⟩
    rw [pinned, Inequality.defect_toEquality, value_atMost, part_point, Vec.dot_singleton,
      bound_atMost, List.headD_cons, hab, sub_self]
    rfl
  exact List.forall_mem_cons.2
    ⟨hpinned 1 3 (by norm_num), List.forall_mem_singleton.2 (hpinned 2 6 (by norm_num))⟩

/-- The two constraints say the same, and no factor mentions the second key. -/
theorem minimize_shortest_pinned :
    0 < Point.totalDim (Graph.sizedBy [key, spare] twoDims) ∧
      Graph.Satisfied [pinned 1 3, pinned 2 6] (point 3) ∧
      ∃ p, Graph.minimize .exact [pull 5] [pinned 1 3, pinned 2 6] (some [key, spare])
          (some (.ofList [(spare, 2)])) false = .ok p ∧
        Graph.Shortest [pull 5] [pinned 1 3, pinned 2 6] [key, spare] twoDims p := by
  have hdim : 0 < Point.totalDim (Graph.sizedBy [key, spare] twoDims) := by decide
  exact ⟨hdim, satisfied_pinned,
    Graph.minimize_shortest Kernels.exact_leastSquares consistent_pinned hdim satisfied_pinned⟩

end OneVariable

end ActiveSet
