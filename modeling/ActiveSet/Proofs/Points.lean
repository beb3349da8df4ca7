import ActiveSet.Point
import ActiveSet.Proofs.Faults
import ActiveSet.Proofs.Keyed
import ActiveSet.Proofs.Vectors

/-!
# Points as vectors

A point is read through the vector at each key, empty where it has none, and laid out over a list of
sized keys as one stacked vector. Sums and splittings are described by these two views.
-/

namespace ActiveSet

namespace Point

/-- The vector at a key, empty if there is none. -/
def part {K : Type} (x : Point K) (k : Key) : List K := (x.lookup k).getD []

theorem part_of_lookup {K : Type} {x : Point K} {k : Key} {v : List K} (h : x.lookup k = some v) :
    x.part k = v := by
  rw [part, h]; rfl

/-! ## Points from functions -/

/-- The point with the vector `r k` at each key of `ks`. -/
def tabulate {K : Type} (ks : List Key) (r : Key → List K) : Point K :=
  Keyed.ofList (ks.map fun k => (k, r k))

theorem part_ofList {K : Type} {l : List (Key × List K)} (hl : (l.map (·.1)).Nodup)
    {e : Key × List K} (he : e ∈ l) : part (Keyed.ofList l) e.1 = e.2 :=
  part_of_lookup ((Keyed.lookup_ofList hl).2 he)

theorem keys_tabulate {K : Type} (ks : List Key) (r : Key → List K) :
    (ks.map fun k => (k, r k)).map (·.1) = ks := by
  simp [Function.comp_def]

theorem lookup_tabulate {K : Type} {ks : List Key} (hn : ks.Nodup) (r : Key → List K) {k : Key}
    (hk : k ∈ ks) : (tabulate ks r).lookup k = some (r k) := by
  refine (Keyed.lookup_ofList ?_).2 (List.mem_map_of_mem (f := fun k => (k, r k)) hk)
  rwa [keys_tabulate]

theorem part_tabulate {K : Type} {ks : List Key} (hn : ks.Nodup) (r : Key → List K) (k : Key) :
    (tabulate ks r).part k = if k ∈ ks then r k else [] := by
  split
  · rename_i hk
    exact part_of_lookup (lookup_tabulate hn r hk)
  · rename_i hk
    rw [part, tabulate, (Keyed.lookup_eq_none_iff _).2]
    · rfl
    · rwa [Keyed.keys, Keyed.entries_ofList (by rwa [keys_tabulate]), keys_tabulate]

/-! ## Sums -/

section Sums

variable {K : Type} [Scalar K]

/-- What a sum `x + s y` holds at one key, from what the operands hold there. -/
def sumAt (s : K) : Option (List K) → Option (List K) → Option (List K)
  | u, none => u
  | none, some v => some (Vec.scale s v)
  | some u, some v => some (Vec.add u (Vec.scale s v))

/-- Two points have vectors of one length at every key that both hold. -/
def Conforms (x y : Point K) : Prop :=
  ∀ k u v, x.lookup k = some u → y.lookup k = some v → u.length = v.length

private theorem lookup_addAt {s : K} {x z : Point K} {k : Key} {v : List K}
    (h : addAt s x k v = .ok z) :
    (∀ u, x.lookup k = some u → u.length = v.length) ∧
      ∀ j, z.lookup j = if j = k then sumAt s (x.lookup k) (some v) else x.lookup j := by
  unfold addAt at h
  cases hk : x.lookup k with
  | none =>
      rw [hk] at h
      obtain rfl := Except.ok.inj h
      exact ⟨by simp, fun j => Keyed.lookup_insert ..⟩
  | some u =>
      simp only [hk] at h
      split at h
      · rename_i hlen
        obtain rfl := Except.ok.inj h
        exact ⟨fun _ hu => Option.some.inj hu ▸ hlen, fun j => Keyed.lookup_insert ..⟩
      · cases h

private theorem lookup_foldl_addAt {s : K} {l : List (Key × List K)} (hl : (l.map (·.1)).Nodup)
    {x z : Point K} (h : l.foldlM (fun acc e => addAt s acc e.1 e.2) x = .ok z) :
    (∀ k u v, x.lookup k = some u → l.lookup k = some v → u.length = v.length) ∧
      ∀ k, z.lookup k = sumAt s (x.lookup k) (l.lookup k) := by
  induction l generalizing x with
  | nil =>
      obtain rfl := pure_eq_ok.1 h
      exact ⟨by simp, fun k => by simp [sumAt]⟩
  | cons e l ih =>
      rw [List.foldlM_cons, bind_eq_ok] at h
      obtain ⟨y, hy, h⟩ := h
      rw [List.map_cons, List.nodup_cons] at hl
      obtain ⟨hlen, hlook⟩ := lookup_addAt hy
      obtain ⟨hlen', hlook'⟩ := ih hl.2 h
      have hnone : l.lookup e.1 = none := Keyed.lookup_of_notMem hl.1
      constructor
      · intro k u v hu hv
        rw [Keyed.lookup_cons] at hv
        split at hv
        · rename_i hk
          obtain rfl := Option.some.inj hv
          exact hlen u (hk ▸ hu)
        · rename_i hk
          exact hlen' k u v (by rw [hlook, if_neg hk, hu]) hv
      · intro k
        rw [hlook', hlook, Keyed.lookup_cons]
        split
        · rename_i hk
          rw [hk, hnone]
          rfl
        · rfl

/-- A sum exists only for points that conform, and holds at every key the sum of what they hold. -/
theorem lookup_addScaled {s : K} {x y z : Point K} (h : addScaled x s y = .ok z) :
    x.Conforms y ∧ ∀ k, z.lookup k = sumAt s (x.lookup k) (y.lookup k) :=
  lookup_foldl_addAt y.nodup h

theorem addScaled_eq_error {s : K} {x y : Point K} {e : Fault K} (h : addScaled x s y = .error e) :
    ∃ c, e = .dimension c := by
  obtain ⟨_, _, z, h⟩ := foldlM_eq_error h
  unfold addAt at h
  split at h
  · cases h
  · split at h
    · cases h
    · exact ⟨_, (Except.error.inj h).symm⟩

private theorem keys_addAt {s : K} {x z : Point K} {k : Key} {v : List K}
    (h : addAt s x k v = .ok z) : z.keys = if k ∈ x.keys then x.keys else x.keys ++ [k] := by
  unfold addAt at h
  split at h
  · rw [← Except.ok.inj h, Keyed.keys_insert]
  · split at h
    · rw [← Except.ok.inj h, Keyed.keys_insert]
    · cases h

private theorem keys_foldl_addAt {s : K} {l : List (Key × List K)} (hl : (l.map (·.1)).Nodup)
    {x z : Point K} (h : l.foldlM (fun acc e => addAt s acc e.1 e.2) x = .ok z) :
    z.keys = x.keys ++ (l.map (·.1)).filter (· ∉ x.keys) := by
  induction l generalizing x with
  | nil => simp [pure_eq_ok.1 h]
  | cons e l ih =>
      rw [List.foldlM_cons, bind_eq_ok] at h
      obtain ⟨y, hy, h⟩ := h
      rw [List.map_cons, List.nodup_cons] at hl
      rw [ih hl.2 h, keys_addAt hy, List.map_cons]
      by_cases hk : e.1 ∈ x.keys
      · simp [hk]
      · have hrest : (l.map (·.1)).filter (· ∉ x.keys ++ [e.1]) =
            (l.map (·.1)).filter (· ∉ x.keys) := by
          refine List.filter_congr fun k hkl => ?_
          have hne : k ≠ e.1 := fun heq => hl.1 (heq ▸ hkl)
          simp [hne]
        rw [if_neg hk, hrest, List.filter_cons_of_pos (by simpa using hk), List.append_assoc]
        rfl

/-- A sum keeps the keys of the first point in front. -/
theorem keys_addScaled {s : K} {x y z : Point K} (h : addScaled x s y = .ok z) :
    z.keys = x.keys ++ y.keys.filter (· ∉ x.keys) :=
  keys_foldl_addAt y.nodup h

theorem front_add {ks : List Key} {x y z : Point K} (hks : ks <+: x.keys) (h : add x y = .ok z) :
    ks <+: z.keys :=
  hks.trans (keys_addScaled h ▸ List.prefix_append ..)

private theorem exists_foldl_addAt {s : K} {l : List (Key × List K)} (hl : (l.map (·.1)).Nodup)
    {x : Point K} (h : ∀ e ∈ l, ∀ u, x.lookup e.1 = some u → u.length = e.2.length) :
    ∃ z, l.foldlM (fun acc e => addAt s acc e.1 e.2) x = .ok z := by
  induction l generalizing x with
  | nil => exact ⟨x, rfl⟩
  | cons e l ih =>
      rw [List.map_cons, List.nodup_cons] at hl
      obtain ⟨y, hy⟩ : ∃ y, addAt s x e.1 e.2 = .ok y := by
        unfold addAt
        cases hu : x.lookup e.1 with
        | none => exact ⟨_, rfl⟩
        | some u => exact ⟨_, if_pos (h e (.head _) u hu)⟩
      have hrest : ∀ g ∈ l, ∀ u, y.lookup g.1 = some u → u.length = g.2.length := by
        intro g hg u hu
        have hne : g.1 ≠ e.1 := fun heq => hl.1 (heq ▸ List.mem_map_of_mem (f := (·.1)) hg)
        rw [(lookup_addAt hy).2, if_neg hne] at hu
        exact h g (.tail _ hg) u hu
      rw [List.foldlM_cons, hy, ok_bind]
      exact ih hl.2 hrest

/-- Points that conform have a sum. -/
theorem exists_addScaled {x y : Point K} (h : x.Conforms y) (s : K) :
    ∃ z, addScaled x s y = .ok z :=
  exists_foldl_addAt y.nodup fun _ he _ hu => h _ _ _ hu (Keyed.lookup_of_mem he)

/-- Products with a sum, key by key; a vector that is missing counts as zero. -/
theorem dot_part_addScaled {s : ℝ} {x y z : Point ℝ} (h : addScaled x s y = .ok z) (k : Key)
    (a : List ℝ) : Vec.dot a (z.part k) = Vec.dot a (x.part k) + s * Vec.dot a (y.part k) := by
  obtain ⟨hc, hl⟩ := lookup_addScaled h
  unfold part
  rw [hl]
  cases hx : x.lookup k with
  | none => cases y.lookup k <;> simp [sumAt, Vec.dot_scale_right]
  | some u =>
      cases hy : y.lookup k with
      | none => simp [sumAt]
      | some v =>
          simp only [sumAt, Option.getD_some]
          rw [Vec.dot_add_right (by simp [hc k u v hx hy]), Vec.dot_scale_right]

theorem lookup_scale (a : K) (x : Point K) (k : Key) :
    (scale a x).lookup k = (x.lookup k).map (Vec.scale a) :=
  Keyed.lookup_map ..

theorem part_scale (a : K) (x : Point K) (k : Key) : (scale a x).part k = Vec.scale a (x.part k) := by
  rw [part, lookup_scale, part]
  cases x.lookup k <;> rfl

theorem dot_part_step {a : ℝ} {x p z : Point ℝ} (h : add x (scale a p) = .ok z) (k : Key)
    (r : List ℝ) : Vec.dot r (z.part k) = Vec.dot r (x.part k) + a * Vec.dot r (p.part k) := by
  rw [dot_part_addScaled h, part_scale, Vec.dot_scale_right, one_mul]

theorem add_scale_singleton (k : Key) (x a p : ℝ) :
    add (.ofList [(k, [x])]) (scale a (.ofList [(k, [p])])) = .ok (.ofList [(k, [x + a * p])]) := by
  have hinsert : (Keyed.ofList [(k, [x])]).insert k [x + a * p] = .ofList [(k, [x + a * p])] := by
    simp [Keyed.ofList, Keyed.insert, Keyed.put, Keyed.empty]
  change [(k, [a * p])].foldlM (fun acc e => addAt 1 acc e.1 e.2) (.ofList [(k, [x])]) = _
  rw [List.foldlM_cons, addAt, Keyed.lookup_ofList_singleton, Vec.scale_one, ← hinsert]
  rfl

theorem length_lookup_add {x y z : Point K} (h : add x y = .ok z) {k : Key} {w : List K}
    (hw : z.lookup k = some w) :
    (∀ u, x.lookup k = some u → w.length = u.length) ∧
      (∀ v, y.lookup k = some v → w.length = v.length) ∧
      (x.lookup k ≠ none ∨ y.lookup k ≠ none) := by
  obtain ⟨hc, hl⟩ := lookup_addScaled h
  rw [hl] at hw
  cases hx : x.lookup k with
  | none =>
      cases hy : y.lookup k with
      | none => simp [hx, hy, sumAt] at hw
      | some v =>
          simp only [hx, hy, sumAt, Option.some.injEq] at hw
          simp [← hw]
  | some u =>
      cases hy : y.lookup k with
      | none =>
          simp only [hx, hy, sumAt, Option.some.injEq] at hw
          simp [← hw]
      | some v =>
          simp only [hx, hy, sumAt, Option.some.injEq] at hw
          have := hc k u v hx hy
          simp [← hw, this]

/-- A step keeps the length of a vector on which the point and the direction agree. -/
theorem length_lookup_step {x p z : Point K} {a : K} (h : add x (scale a p) = .ok z) {k : Key}
    {n : Nat} (hx : ∀ v, x.lookup k = some v → v.length = n)
    (hp : ∀ v, p.lookup k = some v → v.length = n) {w : List K} (hw : z.lookup k = some w) :
    w.length = n := by
  obtain ⟨hfirst, hsecond, hheld⟩ := length_lookup_add h hw
  cases hu : x.lookup k with
  | some u => exact (hfirst u hu).trans (hx u hu)
  | none =>
      obtain ⟨v, hv⟩ := Option.ne_none_iff_exists'.1 (hheld.resolve_left fun hne => hne hu)
      have hlength := hsecond v hv
      rw [lookup_scale, Option.map_eq_some_iff] at hv
      obtain ⟨u, hu, rfl⟩ := hv
      rw [hlength, Vec.length_scale]
      exact hp u hu

/-- The second point is the first, with zeros at some of the keys that the first lacks. -/
def Padded (dims : Keyed Nat) (x y : Point K) : Prop :=
  ∀ k, y.lookup k = x.lookup k ∨
    x.lookup k = none ∧ ∃ n, dims.lookup k = some n ∧ y.lookup k = some (Vec.zeros n)

theorem Padded.refl (dims : Keyed Nat) (x : Point K) : Padded dims x x := fun _ => .inl rfl

theorem Padded.lookup_eq {dims : Keyed Nat} {x y : Point K} (h : Padded dims x y)
    (hx : ∀ k ∈ dims.keys, x.lookup k ≠ none) (k : Key) : y.lookup k = x.lookup k := by
  rcases h k with h | ⟨hnone, n, hn, _⟩
  · exact h
  · exact absurd hnone (hx k ((Keyed.mem_keys_iff dims).2 ⟨n, hn⟩))

theorem padded_of_step_zero {dims : Keyed Nat} {x p y : Point ℝ}
    (hp : ∀ k v, p.lookup k = some v → dims.lookup k = some v.length)
    (h : add x (scale 0 p) = .ok y) : Padded dims x y := by
  intro k
  obtain ⟨hconforms, hlookup⟩ := lookup_addScaled h
  rw [hlookup, lookup_scale]
  cases hv : p.lookup k with
  | none => exact .inl (by simp [sumAt])
  | some v =>
      have hzero : Vec.scale 1 (Vec.scale 0 v) = Vec.zeros v.length := by
        rw [Vec.scale_one, Vec.zero_scale]
      cases hu : x.lookup k with
      | none => exact .inr ⟨rfl, v.length, hp k v hv, congrArg some hzero⟩
      | some u =>
          have hlookup : (scale 0 p).lookup k = some (Vec.scale 0 v) := by
            rw [lookup_scale, hv, Option.map_some]
          have hlen : u.length = v.length :=
            (hconforms k u _ hu hlookup).trans (Vec.length_scale 0 v)
          exact .inl (congrArg some (by rw [hzero, Vec.add_zeros hlen]))

private theorem foldlM_addAt_zero {l : List (Key × List ℝ)} {x y : Point ℝ}
    (hl : ∀ e ∈ l, e.2 = Vec.zeros e.2.length ∧ x.lookup e.1 ≠ none)
    (h : l.foldlM (fun acc e => addAt 1 acc e.1 e.2) x = .ok y) : y = x := by
  induction l with
  | nil => exact (pure_eq_ok.1 h).symm
  | cons e l ih =>
      rw [List.foldlM_cons, bind_eq_ok] at h
      obtain ⟨z, hz, h⟩ := h
      obtain ⟨hzero, hheld⟩ := hl e (.head _)
      obtain ⟨u, hu⟩ := Option.ne_none_iff_exists'.1 hheld
      have hzx : z = x := by
        simp only [addAt, hu] at hz
        split at hz
        · rename_i hlen
          rw [hzero, Vec.scale_zeros, Vec.add_zeros hlen, Keyed.insert_of_lookup hu] at hz
          exact (Except.ok.inj hz).symm
        · cases hz
      subst hzx
      exact ih (fun f hf => hl f (.tail _ hf)) h

/-- Over keys that the point holds a step of length zero leads nowhere. -/
theorem eq_of_step_zero {x p y : Point ℝ} (hp : ∀ k ∈ p.keys, x.lookup k ≠ none)
    (h : add x (scale 0 p) = .ok y) : y = x := by
  refine foldlM_addAt_zero (fun e he => ?_) h
  obtain ⟨f, hf, rfl⟩ := List.mem_map.1 he
  refine ⟨?_, hp f.1 (List.mem_map_of_mem (f := (·.1)) hf)⟩
  simp [Vec.scale, Vec.zeros, List.map_const']

theorem lookup_add_ne_none {x y z : Point K} (h : add x y = .ok z) {k : Key} (hk : x.lookup k ≠ none) :
    z.lookup k ≠ none := by
  rw [(lookup_addScaled h).2]
  obtain ⟨u, hu⟩ := Option.ne_none_iff_exists'.1 hk
  rw [hu]
  cases y.lookup k <;> simp [sumAt]

/-- A point holds a vector of the right length at every key. -/
def Fills (dims : Keyed Nat) (x : Point K) : Prop :=
  ∀ k n, dims.lookup k = some n → ∃ v, x.lookup k = some v ∧ v.length = n

theorem fills_zero (dims : Keyed Nat) : Fills dims (zero dims : Point K) := by
  intro k n hk
  refine ⟨Vec.zeros n, ?_, Vec.length_zeros n⟩
  rw [zero, Keyed.lookup_map, hk, Option.map_some]

theorem Fills.add {dims : Keyed Nat} {x y z : Point K} (hx : Fills dims x) (h : add x y = .ok z) :
    Fills dims z := by
  intro k n hk
  obtain ⟨u, hu, rfl⟩ := hx k n hk
  have hheld := lookup_add_ne_none h (hu ▸ Option.some_ne_none u)
  obtain ⟨w, hw⟩ := Option.ne_none_iff_exists'.1 hheld
  exact ⟨w, hw, (length_lookup_add h hw).1 u hu⟩

/-- Adding the point to zeros gives its entries back, as it does where none is a negative zero. -/
def AddsToZeros (x : Point K) : Prop := ∀ e ∈ x.entries, ∀ a ∈ e.2, 1 * a = a ∧ 0 + a = a

instance instDecidableAddsToZeros [DecidableEq K] (x : Point K) : Decidable (AddsToZeros x) :=
  inferInstanceAs (Decidable (∀ e ∈ x.entries, ∀ a ∈ e.2, 1 * a = a ∧ 0 + a = a))

theorem AddsToZeros.scale_one {x : Point K} (hx : AddsToZeros x) {k : Key} {v : List K}
    (hv : x.lookup k = some v) : Vec.scale 1 v = v :=
  Vec.scale_one_of fun a ha => (hx _ ((Keyed.lookup_iff x).1 hv) a ha).1

theorem AddsToZeros.zeros_add {x : Point K} (hx : AddsToZeros x) {k : Key} {v : List K}
    (hv : x.lookup k = some v) : Vec.add (Vec.zeros v.length) v = v :=
  Vec.zeros_add_of fun a ha => (hx _ ((Keyed.lookup_iff x).1 hv) a ha).2

theorem addsToZeros_real (x : Point ℝ) : AddsToZeros x := fun _ _ a _ => ⟨one_mul a, zero_add a⟩

example : AddsToZeros (Keyed.ofList [(.number 0, [(0.1 : Float), 0, -3])]) ∧
    ¬AddsToZeros (Keyed.ofList [(.number 0, [(-0 : Float)])]) := by
  decide +kernel

/-- Filling a point up with zeros keeps the vectors that it holds. -/
theorem lookup_add_zero {dims : Keyed Nat} {x y : Point K} (hx : AddsToZeros x)
    (h : add (zero dims) x = .ok y) {k : Key} {n : Nat} (hk : dims.lookup k = some n) {v : List K}
    (hv : x.lookup k = some v) : y.lookup k = some v ∧ v.length = n := by
  obtain ⟨hconforms, hlookup⟩ := lookup_addScaled h
  have hzero : (zero dims : Point K).lookup k = some (Vec.zeros n) := by
    rw [zero, Keyed.lookup_map, hk, Option.map_some]
  have hlen : n = v.length := (Vec.length_zeros n).symm.trans (hconforms k _ _ hzero hv)
  refine ⟨?_, hlen.symm⟩
  rw [hlookup, hzero, hv, sumAt, hx.scale_one hv, hlen, hx.zeros_add hv]

/-- Filling up with zeros changes nothing where the keys to fill are held in front. -/
theorem add_zero_of_fills {dims : Keyed Nat} {x : Point K} (hx : AddsToZeros x)
    (hfront : dims.keys <+: x.keys) (hfills : Fills dims x) : add (zero dims) x = .ok x := by
  have hzero : ∀ k, (zero dims : Point K).lookup k = (dims.lookup k).map Vec.zeros :=
    fun k => Keyed.lookup_map ..
  have hconforms : (zero dims : Point K).Conforms x := by
    intro k u v hu hv
    rw [hzero, Option.map_eq_some_iff] at hu
    obtain ⟨n, hn, rfl⟩ := hu
    obtain ⟨v', hv', rfl⟩ := hfills k n hn
    rw [Option.some.inj (hv.symm.trans hv'), Vec.length_zeros]
  obtain ⟨z, hz⟩ := exists_addScaled hconforms 1
  have hzx : z = x := by
    refine Keyed.ext_lookup ?_ fun k => ?_
    · have hn := x.nodup_keys
      obtain ⟨rest, hrest⟩ := hfront
      rw [← hrest, List.nodup_append] at hn
      rw [keys_addScaled hz, zero, Keyed.keys_map, ← hrest, List.filter_append,
        List.filter_eq_nil_iff.2 (by simp), List.nil_append,
        List.filter_eq_self.2 fun k hk => by simpa using fun hd => hn.2.2 k hd k hk rfl]
    · cases hn : dims.lookup k with
      | none =>
          rw [(lookup_addScaled hz).2, hzero, hn]
          cases hv : x.lookup k with
          | none => rfl
          | some v => exact congrArg some (hx.scale_one hv)
      | some n =>
          obtain ⟨v, hv, _⟩ := hfills k n hn
          rw [(lookup_add_zero hx hz hn hv).1, hv]
  rw [← hzx] at hz ⊢
  exact hz

end Sums

theorem sized_of_lookup {K : Type} {ks : List Key} {dims : Keyed Nat} {D : Key → Nat}
    (h : ∀ k ∈ ks, dims.lookup k = some (D k)) :
    (Point.sized ks dims : Except (Fault K) _) = .ok (ks.map fun k => (k, D k)) :=
  mapM_eq_map fun k hk => by
    rw [(Keyed.get_eq_ok_iff (K := K) dims).2 (h k hk), ok_bind, pure_eq_ok]

theorem keys_of_sized {K : Type} {ks : List Key} {dims : Keyed Nat} {sized : List (Key × Nat)}
    (h : (Point.sized ks dims : Except (Fault K) _) = .ok sized) : sized.map (·.1) = ks := by
  rw [Point.sized, mapM_eq_ok] at h
  induction h with
  | nil => rfl
  | cons he _ ih =>
      simp only [bind_eq_ok, pure_eq_ok] at he
      obtain ⟨d, _, rfl⟩ := he
      rw [List.map_cons, ih]

/-! ## Stacked vectors -/

/-- The vectors at the keys of `sized`, each cut or filled up to its size, one behind the other. -/
noncomputable def flat (sized : List (Key × Nat)) (x : Point ℝ) : List ℝ :=
  sized.flatMap fun e => Vec.fit e.2 (x.part e.1)

@[simp] theorem length_flat (sized : List (Key × Nat)) (x : Point ℝ) :
    (flat sized x).length = totalDim sized := by
  induction sized with
  | nil => rfl
  | cons e sized ih => simpa [flat, totalDim] using ih

theorem le_totalDim {sized : List (Key × Nat)} {e : Key × Nat} (he : e ∈ sized) :
    e.2 ≤ totalDim sized := by
  induction sized with
  | nil => cases he
  | cons f sized ih =>
      rw [totalDim]
      rcases List.mem_cons.1 he with rfl | he
      · exact Nat.le_add_right ..
      · exact (ih he).trans (Nat.le_add_left ..)

theorem flat_eq_zeros_iff {sized : List (Key × Nat)} {x : Point ℝ} :
    flat sized x = Vec.zeros (totalDim sized) ↔
      ∀ e ∈ sized, Vec.fit e.2 (x.part e.1) = Vec.zeros e.2 := by
  induction sized with
  | nil => simp [flat, totalDim]
  | cons e sized ih =>
      have hzeros : (Vec.zeros (totalDim (e :: sized)) : List ℝ) =
          Vec.zeros e.2 ++ Vec.zeros (totalDim sized) := by simp [Vec.zeros, totalDim]
      rw [hzeros, flat, List.flatMap_cons, List.forall_mem_cons, ← ih]
      constructor
      · intro h
        exact List.append_inj h (by simp)
      · rintro ⟨hhead, htail⟩
        rw [hhead, ← htail]
        rfl

theorem keys_pieces {K : Type} (sized : List (Key × Nat)) (v : List K) :
    (pieces sized v).map (·.1) = sized.map (·.1) := by
  induction sized generalizing v with
  | nil => rfl
  | cons e sized ih => simp [pieces, ih]

/-- A point that is read back from a stacked vector holds the keys of the ordering. -/
theorem mem_keys_of_split {K : Type} {v : List K} {ks : List Key} {dims : Keyed Nat} {x : Point K}
    (h : split v ks dims = .ok x) {k : Key} : k ∈ x.keys ↔ k ∈ ks := by
  simp only [split, bind_eq_ok] at h
  obtain ⟨sized, hsized, h⟩ := h
  split at h
  · obtain rfl := pure_eq_ok.1 h
    rw [Keyed.mem_keys_ofList, keys_pieces, keys_of_sized hsized]
  · cases h

theorem length_pieces {K : Type} {sized : List (Key × Nat)} {v : List K}
    (hv : v.length = totalDim sized) {e : Key × List K} (he : e ∈ pieces sized v) :
    (e.1, e.2.length) ∈ sized := by
  induction sized generalizing v with
  | nil => cases he
  | cons f sized ih =>
      simp only [totalDim] at hv
      rcases List.mem_cons.1 he with rfl | he
      · rw [List.length_take, hv, min_eq_left (Nat.le_add_right ..)]
        exact .head _
      · exact .tail _ (ih (by simp [hv]) he)

private theorem flat_of_pieces {sized : List (Key × Nat)} {v : List ℝ} {x : Point ℝ}
    (hv : v.length = totalDim sized) (hx : ∀ e ∈ pieces sized v, x.part e.1 = e.2) :
    flat sized x = v := by
  induction sized generalizing v with
  | nil => exact (List.length_eq_zero_iff.1 hv).symm
  | cons f sized ih =>
      simp only [totalDim] at hv
      have hhead := hx _ (.head _)
      have htail := ih (v := v.drop f.2) (by simp [hv]) fun e he => hx e (.tail _ he)
      have hlen : (v.take f.2).length = f.2 := by simp [hv]
      simp only [flat, List.flatMap_cons] at htail ⊢
      rw [htail, hhead, Vec.fit_eq_self hlen, List.take_append_drop]

/-- The point that a stacked vector stands for. -/
def ofFlat {K : Type} (sized : List (Key × Nat)) (v : List K) : Point K :=
  Keyed.ofList (pieces sized v)

theorem flat_ofFlat {sized : List (Key × Nat)} (hn : (sized.map (·.1)).Nodup) {v : List ℝ}
    (hv : v.length = totalDim sized) : flat sized (ofFlat sized v) = v := by
  refine flat_of_pieces hv fun e he => part_of_lookup ?_
  exact (Keyed.lookup_ofList (by rwa [keys_pieces])).2 he

theorem keys_ofFlat {K : Type} {sized : List (Key × Nat)} (hn : (sized.map (·.1)).Nodup)
    (v : List K) : (ofFlat sized v).keys = sized.map (·.1) := by
  rw [← keys_pieces sized v, ofFlat, Keyed.keys, Keyed.entries_ofList (by rwa [keys_pieces])]

theorem length_lookup_ofFlat {K : Type} {sized : List (Key × Nat)}
    (hn : (sized.map (·.1)).Nodup) {v u : List K} (hv : v.length = totalDim sized) {k : Key}
    (h : (ofFlat sized v).lookup k = some u) : (k, u.length) ∈ sized :=
  length_pieces hv ((Keyed.lookup_ofList (by rwa [keys_pieces])).1 h)

theorem fills_ofFlat {K : Type} {dims : Keyed Nat} {v : List K}
    (hv : v.length = totalDim dims.entries) : Fills dims (ofFlat dims.entries v) := by
  intro k n hk
  have hmem : k ∈ (ofFlat dims.entries v).keys := by
    rw [keys_ofFlat dims.nodup]
    exact (Keyed.mem_keys_iff dims).2 ⟨n, hk⟩
  obtain ⟨u, hu⟩ := (Keyed.mem_keys_iff _).1 hmem
  have hlength := Keyed.lookup_of_mem (length_lookup_ofFlat dims.nodup hv hu)
  exact ⟨u, hu, Option.some.inj (hlength.symm.trans hk)⟩

/-! ## Inner products -/

/-- The inner product needs equal lengths where both points hold a vector. -/
theorem dot_eq_ok {x y : Point ℝ} {a : ℝ} : dot x y = .ok a ↔
    (∀ e ∈ x.entries, ∀ v, y.lookup e.1 = some v → v.length = e.2.length) ∧
      a = (x.entries.map fun e => Vec.dot e.2 (y.part e.1)).sum := by
  simp only [dot, bind_eq_ok, pure_eq_ok, Vec.total_eq_sum]
  refine (exists_congr fun l => and_congr_left' (mapM_eq_ok_iff
    (P := fun e => ∀ v, y.lookup e.1 = some v → v.length = e.2.length)
    (g := fun e => Vec.dot e.2 (y.part e.1)) fun e b => ?_)).trans ?_
  · unfold part
    cases y.lookup e.1 with
    | none => simp [eq_comm]
    | some v => by_cases hv : v.length = e.2.length <;> simp [hv, eq_comm]
  · constructor
    · rintro ⟨_, ⟨hfits, rfl⟩, rfl⟩
      exact ⟨hfits, rfl⟩
    · rintro ⟨hfits, rfl⟩
      exact ⟨_, ⟨hfits, rfl⟩, rfl⟩

/-! ## Length -/

theorem norm_eq_sqrt (x : Point ℝ) :
    norm x = Real.sqrt (x.entries.map fun e => Vec.dot e.2 e.2).sum := by
  rw [norm, Scalar.sqrt_real, Vec.total_eq_sum, Keyed.values, List.map_map]
  rfl

theorem norm_of_singleton {x : Point ℝ} {k : Key} {v : List ℝ} (h : x.entries = [(k, v)]) :
    norm x = Real.sqrt (Vec.dot v v) := by
  rw [norm_eq_sqrt, h, List.map_singleton, List.sum_singleton]

theorem norm_singleton (k : Key) (a : ℝ) : norm (.ofList [(k, [a])]) = |a| := by
  rw [norm_of_singleton rfl, Vec.dot_singleton, List.headD_cons, Real.sqrt_mul_self_eq_abs]

theorem norm_mul_self (x : Point ℝ) :
    norm x * norm x = (x.entries.map fun e => Vec.dot e.2 e.2).sum := by
  rw [norm_eq_sqrt, Real.mul_self_sqrt]
  refine List.sum_nonneg fun a ha => ?_
  obtain ⟨e, _, rfl⟩ := List.mem_map.1 ha
  exact Vec.dot_self_nonneg e.2

theorem part_of_norm_eq_zero {x : Point ℝ} (h : norm x = 0) (k : Key) :
    x.part k = Vec.zeros (x.part k).length := by
  cases hk : x.lookup k with
  | none => simp [part, hk]
  | some v =>
      have hsum := norm_mul_self x
      rw [h, mul_zero] at hsum
      rw [part_of_lookup hk]
      exact Vec.eq_zeros_of_sum_dot_self hsum.symm (k, v) ((Keyed.lookup_iff x).1 hk)

end Point

end ActiveSet
