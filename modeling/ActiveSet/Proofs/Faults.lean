import Mathlib.Data.List.Forall2
import Mathlib.Logic.Function.Basic
import ActiveSet.Fault

/-!
# Chains of computations that may fail

A chain succeeds exactly if each link does, and fails with the fault of one of its links.
-/

namespace ActiveSet

variable {ε α β : Type}

theorem ok_bind {a : α} {f : α → Except ε β} : (Except.ok a >>= f) = f a := rfl

theorem bind_eq_ok {x : Except ε α} {f : α → Except ε β} {b : β} :
    x >>= f = .ok b ↔ ∃ a, x = .ok a ∧ f a = .ok b := by
  cases x with
  | error e => simp [bind, Except.bind]
  | ok a => simp [bind, Except.bind]

theorem bind_eq_error {x : Except ε α} {f : α → Except ε β} {e : ε} :
    x >>= f = .error e ↔ x = .error e ∨ ∃ a, x = .ok a ∧ f a = .error e := by
  cases x with
  | error e => simp [bind, Except.bind]
  | ok a => simp [bind, Except.bind]

theorem pure_eq_ok {a b : α} : (pure a : Except ε α) = .ok b ↔ a = b := by
  simp [pure, Except.pure]

theorem pure_ne_error {a : α} {e : ε} : (pure a : Except ε α) ≠ .error e := by
  simp [pure, Except.pure]

theorem mapM_eq_ok {f : α → Except ε β} {l : List α} {r : List β} :
    l.mapM f = .ok r ↔ List.Forall₂ (fun a b => f a = .ok b) l r := by
  induction l generalizing r with
  | nil => simp [pure, Except.pure, eq_comm]
  | cons a l ih =>
      simp only [List.mapM_cons, bind_eq_ok, pure_eq_ok, ih]
      constructor
      · rintro ⟨b, hb, r, hr, rfl⟩
        exact .cons hb hr
      · rintro (_ | ⟨hb, hr⟩)
        exact ⟨_, hb, _, hr, rfl⟩

theorem exists_of_mem_right {R : α → β → Prop} {l : List α} {r : List β} (h : List.Forall₂ R l r)
    {b : β} (hb : b ∈ r) : ∃ a ∈ l, R a b := by
  induction h with
  | nil => cases hb
  | @cons a _ l _ hR _ ih =>
      rcases List.mem_cons.1 hb with rfl | hb
      · exact ⟨a, .head _, hR⟩
      · obtain ⟨c, hc, hR⟩ := ih hb
        exact ⟨c, .tail _ hc, hR⟩

theorem exists_of_mem_left {R : α → β → Prop} {l : List α} {r : List β} (h : List.Forall₂ R l r)
    {a : α} (ha : a ∈ l) : ∃ b ∈ r, R a b :=
  exists_of_mem_right h.flip ha

theorem forall_mem_iff_of_forall₂ {R : α → β → Prop} {l : List α} {r : List β}
    (h : List.Forall₂ R l r) {φ : α → Prop} {ψ : β → Prop} (hR : ∀ a b, R a b → (φ a ↔ ψ b)) :
    (∀ a ∈ l, φ a) ↔ ∀ b ∈ r, ψ b := by
  induction h with
  | nil => simp
  | cons hab _ ih => rw [List.forall_mem_cons, List.forall_mem_cons, hR _ _ hab, ih]

/-- Over distinct entries a relation to a second list is one to the values of a function. -/
theorem exists_fun_of_forall₂ [Nonempty β] {R : α → β → Prop} {l : List α} {r : List β}
    (h : List.Forall₂ R l r) (hl : l.Nodup) : ∃ Φ : α → β, r = l.map Φ ∧ ∀ a ∈ l, R a (Φ a) := by
  classical
  induction h with
  | nil => exact ⟨fun _ => Classical.arbitrary β, rfl, by simp⟩
  | @cons a b l r hR _ ih =>
      rw [List.nodup_cons] at hl
      obtain ⟨Φ, rfl, hΦ⟩ := ih hl.2
      have hne : ∀ c ∈ l, c ≠ a := fun c hc hca => hl.1 (hca ▸ hc)
      refine ⟨Function.update Φ a b, ?_, List.forall_mem_cons.2 ⟨?_, fun c hc => ?_⟩⟩
      · rw [List.map_cons, Function.update_self]
        exact congrArg _ (List.map_congr_left fun c hc => (Function.update_of_ne (hne c hc) ..).symm)
      · rwa [Function.update_self]
      · rw [Function.update_of_ne (hne c hc)]
        exact hΦ c hc

theorem mapM_congr {f g : α → Except ε β} {l : List α} (h : ∀ a ∈ l, f a = g a) :
    l.mapM f = l.mapM g := by
  induction l with
  | nil => rfl
  | cons a l ih =>
      rw [List.mapM_cons, List.mapM_cons, h a (.head _), ih fun b hb => h b (.tail _ hb)]

theorem mapM_eq_map {f : α → Except ε β} {g : α → β} {l : List α} (h : ∀ a ∈ l, f a = .ok (g a)) :
    l.mapM f = .ok (l.map g) := by
  rw [mapM_eq_ok, List.forall₂_map_right_iff, List.forall₂_same]
  exact h

theorem mapM_ok {f : α → Except ε β} {l : List α} (h : ∀ a ∈ l, ∃ b, f a = .ok b) :
    ∃ r, l.mapM f = .ok r := by
  induction l with
  | nil => exact ⟨[], rfl⟩
  | cons a l ih =>
      obtain ⟨b, hb⟩ := h a (.head _)
      obtain ⟨r, hr⟩ := ih fun c hc => h c (.tail _ hc)
      exact ⟨b :: r, by rw [List.mapM_cons, hb, ok_bind, hr]; rfl⟩

theorem mapM_eq_ok_iff {f : α → Except ε β} {P : α → Prop} {g : α → β}
    (h : ∀ a b, f a = .ok b ↔ P a ∧ b = g a) {l : List α} {r : List β} :
    l.mapM f = .ok r ↔ (∀ a ∈ l, P a) ∧ r = l.map g := by
  simp only [mapM_eq_ok, h]
  constructor
  · intro hr
    induction hr with
    | nil => exact ⟨List.forall_mem_nil _, rfl⟩
    | cons ha _ ih => exact ⟨List.forall_mem_cons.2 ⟨ha.1, ih.1⟩, by rw [ha.2, ih.2, List.map_cons]⟩
  · rintro ⟨hP, rfl⟩
    rw [List.forall₂_map_right_iff, List.forall₂_same]
    exact fun a ha => ⟨hP a ha, rfl⟩

theorem mapM_eq_error {f : α → Except ε β} {l : List α} {e : ε} (h : l.mapM f = .error e) :
    ∃ a ∈ l, f a = .error e := by
  induction l with
  | nil => cases h
  | cons a l ih =>
      simp only [List.mapM_cons, bind_eq_error, pure_ne_error, and_false, exists_false,
        or_false] at h
      rcases h with h | ⟨b, _, h⟩
      · exact ⟨a, .head _, h⟩
      · obtain ⟨c, hc, h⟩ := ih h
        exact ⟨c, .tail _ hc, h⟩

theorem exists_of_mapM_eq_some {f : α → Except ε β} {o : Option α} {b : β}
    (h : o.mapM f = .ok (some b)) : ∃ a, o = some a ∧ f a = .ok b := by
  cases o with
  | none => cases h
  | some a =>
      obtain ⟨b', hb', h⟩ := bind_eq_ok.1 h
      cases h
      exact ⟨a, rfl, hb'⟩

/-- A chain whose links succeed and keep a property succeeds with that property. -/
theorem foldlM_ok {f : β → α → Except ε β} {P : β → Prop} {l : List α}
    (h : ∀ a ∈ l, ∀ b, P b → ∃ c, f b a = .ok c ∧ P c) {b : β} (hb : P b) :
    ∃ c, l.foldlM f b = .ok c ∧ P c := by
  induction l generalizing b with
  | nil => exact ⟨b, rfl, hb⟩
  | cons a l ih =>
      obtain ⟨c, hc, hP⟩ := h a (.head _) b hb
      rw [List.foldlM_cons, hc]
      exact ih (fun a ha => h a (.tail _ ha)) hP

theorem foldlM_congr {f g : β → α → Except ε β} {l : List α} (h : ∀ a ∈ l, ∀ b, f b a = g b a)
    (b : β) : l.foldlM f b = l.foldlM g b := by
  induction l generalizing b with
  | nil => rfl
  | cons a l ih =>
      have hrest : ∀ c, l.foldlM f c = l.foldlM g c := ih fun a ha => h a (.tail _ ha)
      rw [List.foldlM_cons, List.foldlM_cons, h a (.head _), funext hrest]

theorem exists_of_foldlM_eq_ok {f : β → α → Except ε β} {l : List α} {b r : β}
    (h : l.foldlM f b = .ok r) : ∀ a ∈ l, ∃ c d, f c a = .ok d := by
  induction l generalizing b with
  | nil => exact List.forall_mem_nil _
  | cons a l ih =>
      rw [List.foldlM_cons, bind_eq_ok] at h
      obtain ⟨d, hd, h⟩ := h
      exact List.forall_mem_cons.2 ⟨⟨b, d, hd⟩, ih h⟩

theorem foldlM_eq_error {f : β → α → Except ε β} {l : List α} {b : β} {e : ε}
    (h : l.foldlM f b = .error e) : ∃ a ∈ l, ∃ c, f c a = .error e := by
  induction l generalizing b with
  | nil => cases h
  | cons a l ih =>
      rw [List.foldlM_cons, bind_eq_error] at h
      rcases h with h | ⟨c, _, h⟩
      · exact ⟨a, .head _, b, h⟩
      · obtain ⟨d, hd, h⟩ := ih h
        exact ⟨d, .tail _ hd, h⟩

theorem forM_eq_error {f : α → Except ε Unit} {l : List α} {e : ε} (h : l.forM f = .error e) :
    ∃ a ∈ l, f a = .error e := by
  induction l with
  | nil => cases h
  | cons a l ih =>
      rw [List.forM, bind_eq_error] at h
      rcases h with h | ⟨_, _, h⟩
      · exact ⟨a, .head _, h⟩
      · obtain ⟨b, hb, h⟩ := ih h
        exact ⟨b, .tail _ hb, h⟩

theorem eq_ok_of_forM {f : α → Except ε Unit} {l : List α} {u : Unit} (h : l.forM f = .ok u) :
    ∀ a ∈ l, f a = .ok () := by
  induction l with
  | nil => exact List.forall_mem_nil _
  | cons a l ih =>
      rw [List.forM, bind_eq_ok] at h
      obtain ⟨_, ha, hl⟩ := h
      exact List.forall_mem_cons.2 ⟨ha, ih hl⟩

theorem forM_eq_ok {f : α → Except ε Unit} {l : List α} (h : ∀ a ∈ l, f a = .ok ()) :
    l.forM f = .ok () := by
  induction l with
  | nil => rfl
  | cons a l ih =>
      have ha := h a (.head _)
      have hl := ih fun b hb => h b (.tail _ hb)
      rw [List.forM, ha]
      exact hl

end ActiveSet
