import ActiveSet.Proofs.Agreement
import ActiveSet.Proofs.Shifts

/-!
# The arithmetic of points

Points are maps from keys to vectors in which a missing key counts as zero. Sums of any bracketing are
refused for the same operands and agree where they exist, and differences, multiples and inner
products are linear in them.
-/

namespace ActiveSet

namespace Keyed

variable {α β : Type}

theorem map_insert (f : α → β) (m : Keyed α) (k : Key) (v : α) :
    (m.insert k v).map f = (m.map f).insert k (f v) := by
  refine ext_lookup ?_ fun j => ?_
  · rw [keys_map, keys_insert, keys_insert, keys_map]
  · rw [lookup_map, lookup_insert, lookup_insert, lookup_map]
    split <;> rfl

end Keyed

namespace Point

variable {a b c : Point ℝ}

/-! ## Sums at one key -/

theorem sumAt_comm (u v : Option (List ℝ)) : sumAt 1 u v = sumAt 1 v u := by
  cases u <;> cases v <;> simp [sumAt, Vec.scale_one, Vec.add_comm']

theorem sumAt_assoc (u v w : Option (List ℝ)) :
    sumAt 1 (sumAt 1 u v) w = sumAt 1 u (sumAt 1 v w) := by
  cases u <;> cases v <;> cases w <;> simp [sumAt, Vec.scale_one, Vec.add_assoc']

/-! ## Operands that conform -/

theorem Conforms.symm (h : a.Conforms b) : b.Conforms a := fun k u v hu hv => (h k v u hv hu).symm

theorem exists_add_iff : (∃ z, add a b = .ok z) ↔ a.Conforms b :=
  ⟨fun ⟨_, hz⟩ => (lookup_addScaled hz).1, fun h => exists_addScaled h 1⟩

/-- A sum conforms to what both operands conform to. -/
theorem conforms_add_iff {z : Point ℝ} (h : add a b = .ok z) :
    z.Conforms c ↔ a.Conforms c ∧ b.Conforms c := by
  obtain ⟨_, hlookup⟩ := lookup_addScaled h
  constructor
  · intro hz
    refine ⟨fun k u w hu hw => ?_, fun k v w hv hw => ?_⟩
    · have hheld : z.lookup k ≠ none := lookup_add_ne_none h (hu ▸ Option.some_ne_none u)
      obtain ⟨x, hx⟩ := Option.ne_none_iff_exists'.1 hheld
      rw [← hz k x w hx hw, (length_lookup_add h hx).1 u hu]
    · have hheld : z.lookup k ≠ none := by
        rw [hlookup, hv]
        cases a.lookup k <;> exact Option.some_ne_none _
      obtain ⟨x, hx⟩ := Option.ne_none_iff_exists'.1 hheld
      rw [← hz k x w hx hw, (length_lookup_add h hx).2.1 v hv]
  · rintro ⟨ha, hb⟩ k x w hx hw
    obtain ⟨hfirst, hsecond, hheld⟩ := length_lookup_add h hx
    rcases hheld with hheld | hheld
    · obtain ⟨u, hu⟩ := Option.ne_none_iff_exists'.1 hheld
      rw [hfirst u hu, ha k u w hu hw]
    · obtain ⟨v, hv⟩ := Option.ne_none_iff_exists'.1 hheld
      rw [hsecond v hv, hb k v w hv hw]

/-- A sum is refused for two vectors of different lengths at one key. -/
def Refused (sum : Except (Fault ℝ) (Point ℝ)) : Prop :=
  ∃ k m n, m ≠ n ∧ sum = .error (.dimension (.summands k m n))

theorem refused_addScaled {s : ℝ} {e : Fault ℝ} (h : addScaled a s b = .error e) :
    Refused (.error e) := by
  obtain ⟨f, _, z, h⟩ := foldlM_eq_error h
  unfold addAt at h
  split at h
  · cases h
  · split at h
    · cases h
    · rename_i u _ hne
      exact ⟨f.1, u.length, f.2.length, hne, h.symm ▸ rfl⟩

theorem refused_add (h : ¬a.Conforms b) : Refused (add a b) := by
  cases hsum : add a b with
  | ok z => exact absurd (exists_add_iff.1 ⟨z, hsum⟩) h
  | error e => exact refused_addScaled hsum

/-! ## Sums of two and of three -/

/-- The second order of two operands gives the same map, with its keys in another order. -/
theorem add_comm_same (h : a.Conforms b) : ∃ y z, add a b = .ok y ∧ add b a = .ok z ∧ y.Same z := by
  obtain ⟨y, hy⟩ := exists_add_iff.2 h
  obtain ⟨z, hz⟩ := exists_add_iff.2 h.symm
  refine ⟨y, z, hy, hz, fun k => ?_⟩
  rw [(lookup_addScaled hy).2, (lookup_addScaled hz).2, sumAt_comm]

/-- All three pairs of the operands conform. -/
def AllConform (a b c : Point ℝ) : Prop := a.Conforms b ∧ a.Conforms c ∧ b.Conforms c

/-- Both bracketings give the same point, keys in the same order. -/
theorem add_add_eq (h : AllConform a b c) : ∃ x y z, add a b = .ok x ∧ add x c = .ok z ∧
    add b c = .ok y ∧ add a y = .ok z := by
  obtain ⟨hab, hac, hbc⟩ := h
  obtain ⟨x, hx⟩ := exists_add_iff.2 hab
  obtain ⟨z, hz⟩ := exists_add_iff.2 ((conforms_add_iff hx).2 ⟨hac, hbc⟩)
  obtain ⟨y, hy⟩ := exists_add_iff.2 hbc
  obtain ⟨z', hz'⟩ := exists_add_iff.2
    ((conforms_add_iff hy).2 ⟨hab.symm, hac.symm⟩).symm
  have heq : z = z' := by
    refine Keyed.ext_lookup ?_ fun k => ?_
    · rw [keys_addScaled hz, keys_addScaled hx, keys_addScaled hz', keys_addScaled hy,
        List.filter_append, List.filter_filter, List.append_assoc]
      congr 2
      refine List.filter_congr fun k _ => ?_
      by_cases hk : k ∈ a.keys <;> simp [hk]
    · rw [(lookup_addScaled hz).2, (lookup_addScaled hx).2, (lookup_addScaled hz').2,
        (lookup_addScaled hy).2, sumAt_assoc]
  exact ⟨x, y, z, hx, hz, hy, heq ▸ hz'⟩

theorem refused_add_left (h : ¬AllConform a b c) : Refused (add a b >>= fun x => add x c) := by
  cases hx : add a b with
  | error e => exact refused_addScaled hx
  | ok x =>
      refine refused_add fun hxc => h ?_
      exact ⟨exists_add_iff.1 ⟨x, hx⟩, (conforms_add_iff hx).1 hxc⟩

theorem refused_add_right (h : ¬AllConform a b c) : Refused (add b c >>= fun y => add a y) := by
  cases hy : add b c with
  | error e => exact refused_addScaled hy
  | ok y =>
      refine refused_add fun hay => h ?_
      obtain ⟨hba, hca⟩ := (conforms_add_iff hy).1 hay.symm
      exact ⟨hba.symm, hca.symm, exists_add_iff.1 ⟨y, hy⟩⟩

/-! ## Differences and multiples -/

/-- A difference is the sum with the negative, and refused with the same fault. -/
theorem sub_eq_add_scale (a b : Point ℝ) : sub a b = add a (scale (-1) b) := by
  have hentries : (scale (-1) b).entries = b.entries.map fun e => (e.1, Vec.scale (-1) e.2) := rfl
  have hstep : ∀ (x : Point ℝ) (k : Key) (v : List ℝ),
      addAt (-1) x k v = addAt 1 x k (Vec.scale (-1) v) := by
    intro x k v
    rw [addAt, addAt, Vec.scale_one, Vec.length_scale]
  rw [sub, add, addScaled, addScaled, hentries, List.foldlM_map]
  simp only [hstep]

private theorem addAt_scale (t : ℝ) (x : Point ℝ) (k : Key) (v : List ℝ) :
    addAt 1 (scale t x) k (Vec.scale t v) = (addAt 1 x k v).map (scale t) := by
  have hscale : Vec.scale 1 (Vec.scale t v) = Vec.scale t (Vec.scale 1 v) := by
    rw [Vec.scale_one, Vec.scale_one]
  rw [addAt, addAt, lookup_scale, hscale]
  cases hu : x.lookup k with
  | none => exact congrArg Except.ok (Keyed.map_insert ..).symm
  | some u =>
      simp only [Option.map_some, Vec.length_scale]
      split
      · rw [← Vec.scale_add]
        exact congrArg Except.ok (Keyed.map_insert ..).symm
      · rfl

/-- A multiple of a sum is the sum of the multiples, and refused with the same fault. -/
theorem add_scale (t : ℝ) (a b : Point ℝ) :
    add (scale t a) (scale t b) = (add a b).map (scale t) := by
  -- Each entry is added to a multiple of what the entries before it have made.
  have hfold : ∀ (l : List (Key × List ℝ)) (x : Point ℝ),
      (l.map fun e => (e.1, Vec.scale t e.2)).foldlM (fun acc e => addAt 1 acc e.1 e.2) (scale t x) =
        (l.foldlM (fun acc e => addAt 1 acc e.1 e.2) x).map (scale t) := by
    intro l
    induction l with
    | nil => exact fun x => rfl
    | cons e l ih =>
        intro x
        rw [List.map_cons, List.foldlM_cons, List.foldlM_cons, addAt_scale]
        cases addAt 1 x e.1 e.2 with
        | error e => rfl
        | ok y => exact ih y
  exact hfold b.entries a

/-! ## Inner products -/

theorem exists_dot (h : a.Conforms b) :
    dot a b = .ok (a.entries.map fun e => Vec.dot e.2 (b.part e.1)).sum :=
  dot_eq_ok.2 ⟨fun _ he v hv => (h _ _ v (Keyed.lookup_of_mem he) hv).symm, rfl⟩

/-- The inner product with a sum, where each side skips the keys that it does not share. -/
theorem dot_add (h : AllConform a b c) : ∃ z p q, add a b = .ok z ∧ dot a c = .ok p ∧
    dot b c = .ok q ∧ dot z c = .ok (p + q) := by
  obtain ⟨hab, hac, hbc⟩ := h
  obtain ⟨z, hz⟩ := exists_add_iff.2 hab
  refine ⟨z, _, _, hz, exists_dot hac, exists_dot hbc, ?_⟩
  rw [exists_dot ((conforms_add_iff hz).2 ⟨hac, hbc⟩)]
  have hkeys : ∀ k ∈ a.keys ++ b.keys, k ∈ z.keys := by
    intro k hk
    rw [keys_addScaled hz]
    by_cases ha : k ∈ a.keys <;> simp_all
  have hterm : ∀ k, (z.lookup k).elim 0 (fun v => Vec.dot v (c.part k)) =
      (a.lookup k).elim 0 (fun v => Vec.dot v (c.part k)) +
        (b.lookup k).elim 0 (fun v => Vec.dot v (c.part k)) := by
    intro k
    rw [(lookup_addScaled hz).2]
    cases hu : a.lookup k with
    | none => cases b.lookup k <;> simp [sumAt, Vec.scale_one]
    | some u =>
        cases hv : b.lookup k with
        | none => simp [sumAt]
        | some v =>
            rw [sumAt, Vec.scale_one]
            exact Vec.dot_add_left (hab k u v hu hv) _
  have hsum := fun m hm => Keyed.sum_lookup m z.nodup_keys hm fun k v => Vec.dot v (c.part k)
  rw [← hsum z fun _ hk => hk, ← hsum a fun k hk => hkeys k (List.mem_append_left _ hk),
    ← hsum b fun k hk => hkeys k (List.mem_append_right _ hk), ← List.sum_map_add]
  simp only [hterm]

/--
Points over the reals are a module, read as maps from keys to vectors: sums commute and associate, with
the keys of the first operand in front, and are refused exactly if two operands clash, whatever the
bracketing. Differences, multiples and inner products go through sums.
-/
theorem module_laws (a b c : Point ℝ) (t : ℝ) :
    (a.Conforms b ∧ (∃ y z, add a b = .ok y ∧ add b a = .ok z ∧ y.Same z ∧
        y.keys = a.keys ++ b.keys.filter (· ∉ a.keys)) ∨
      ¬a.Conforms b ∧ Refused (add a b) ∧ Refused (add b a)) ∧
    (AllConform a b c ∧ (∃ x y z, add a b = .ok x ∧ add x c = .ok z ∧ add b c = .ok y ∧
        add a y = .ok z) ∨
      ¬AllConform a b c ∧ Refused (add a b >>= fun x => add x c) ∧
        Refused (add b c >>= fun y => add a y)) ∧
    sub a b = add a (scale (-1) b) ∧ (add a b).map (scale t) = add (scale t a) (scale t b) ∧
    (AllConform a b c → ∃ z p q, add a b = .ok z ∧ dot a c = .ok p ∧ dot b c = .ok q ∧
      dot z c = .ok (p + q)) := by
  refine ⟨?_, ?_, sub_eq_add_scale a b, (add_scale t a b).symm, dot_add⟩
  · by_cases h : a.Conforms b
    · obtain ⟨y, z, hy, hz, hsame⟩ := add_comm_same h
      exact .inl ⟨h, y, z, hy, hz, hsame, keys_addScaled hy⟩
    · exact .inr ⟨h, refused_add h, refused_add fun hba => h hba.symm⟩
  · by_cases h : AllConform a b c
    · exact .inl ⟨h, add_add_eq h⟩
    · exact .inr ⟨h, refused_add_left h, refused_add_right h⟩

end Point

namespace TwoVariables

/-- The operands share some of their keys with each other, and the last one clashes at one of them. -/
theorem module_laws_overlap :
    Point.AllConform (atBoth 1 5) (atRight 2) (atBoth 3 4) ∧
    (∃ z, Point.add (atBoth 1 5) (atRight 2) = .ok z ∧ z.keys = [left, right, spare] ∧
      Point.dot z (atBoth 3 4) = .ok 31) ∧
    Point.Refused (Point.add (atRight 2) (Keyed.ofList [(right, [1, 1])])) := by
  have hleft := (sized_atBoth 1 5).conforms (sized_atRight 2)
  have hboth := (sized_atBoth 1 5).conforms (sized_atBoth 3 4)
  have hright := (sized_atRight 2).conforms (sized_atBoth 3 4)
  have hall : Point.AllConform (atBoth 1 5) (atRight 2) (atBoth 3 4) := ⟨hleft, hboth, hright⟩
  obtain ⟨hcomm, _, _, _, hdot⟩ := Point.module_laws (atBoth 1 5) (atRight 2) (atBoth 3 4) 0
  refine ⟨hall, ?_, ?_⟩
  · obtain ⟨z, p, q, hz, hp, hq, hsum⟩ := hdot hall
    obtain ⟨_, y, _, hy, _, _, hkeys⟩ := hcomm.resolve_right fun h => h.1 hleft
    obtain rfl := Except.ok.inj (hz.symm.trans hy)
    refine ⟨z, hz, hkeys.trans (by decide), ?_⟩
    have hp : p = ([Vec.dot [1] [3], Vec.dot [5] [4]] : List ℝ).sum := (Point.dot_eq_ok.1 hp).2
    have hq : q = ([Vec.dot [2] [4], Vec.dot [2, 2] []] : List ℝ).sum := (Point.dot_eq_ok.1 hq).2
    rw [hsum, hp, hq]
    norm_num
  · have hclash : ¬(atRight 2).Conforms (Keyed.ofList [(right, [1, 1])]) := fun h => by
      cases h right [2] [1, 1] rfl rfl
    obtain ⟨hcomm, _⟩ := Point.module_laws (atRight 2) (Keyed.ofList [(right, [1, 1])]) (atBoth 3 4) 0
    exact (hcomm.resolve_left fun h => hclash h.1).2.1

end TwoVariables

end ActiveSet
