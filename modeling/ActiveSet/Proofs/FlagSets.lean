import Mathlib.Data.Finset.Card
import Mathlib.Data.Finset.Range
import ActiveSet.Proofs.OneVariable

/-!
# Working sets as sets of positions

A working set stands for the finite set of its active positions. Calls that set or clear a flag insert
and remove positions, calls that would change nothing are refused, and all views of the flags are views
of that set, after any calls.
-/

namespace ActiveSet

/-! ## Calls -/

/-- Asks for the flag at a position, counted from the end if it is negative, to be set or cleared. -/
structure FlagCall where
  position : Int
  flag : Bool

namespace FlagCall

/-- The position is one of `n` from the front or one of `n` from the end. -/
def InRange (n : Nat) (c : FlagCall) : Prop := -(n : Int) ≤ c.position ∧ c.position < n

def place (n : Nat) (c : FlagCall) : Nat :=
  (if c.position < 0 then c.position + n else c.position).toNat

instance (n : Nat) (c : FlagCall) : Decidable (c.InRange n) := inferInstanceAs (Decidable (_ ∧ _))

/-- The call as an operation on sets of positions. -/
def onSet (n : Nat) (S : Finset Nat) (c : FlagCall) : Finset Nat :=
  if c.InRange n then if c.flag then insert (c.place n) S else S.erase (c.place n) else S

def Refused (n : Nat) (S : Finset Nat) (c : FlagCall) : Prop :=
  ¬c.InRange n ∨ (c.place n ∈ S ↔ c.flag = true)

/-- The complaint that the position has the flag already. -/
def complaint {K : Type} (c : FlagCall) : Refusal K :=
  if c.flag then .alreadyActive c.position else .alreadyInactive c.position

theorem place?_position (n : Nat) (c : FlagCall) :
    Position.place? n c.position = if c.InRange n then some (c.place n) else none := by
  unfold Position.place? InRange place
  by_cases hneg : c.position < 0
  · rw [if_neg (by omega), if_pos hneg]
    exact if_congr (by omega) rfl rfl
  · rw [if_neg hneg]
    exact if_congr (by omega) rfl (if_neg (by omega))

theorem place_lt {n : Nat} {c : FlagCall} (h : c.InRange n) : c.place n < n := by
  have hplace : Position.place? n c.position = some (c.place n) := by
    rw [place?_position, if_pos h]
  exact Position.place?_lt hplace

theorem onSet_of_refused {n : Nat} {S : Finset Nat} {c : FlagCall} (h : c.Refused n S) :
    c.onSet n S = S := by
  unfold onSet
  split
  · rename_i hrange
    have hiff := h.resolve_left (not_not_intro hrange)
    split
    · rename_i hflag
      exact Finset.insert_eq_self.2 (hiff.2 hflag)
    · rename_i hflag
      exact Finset.erase_eq_of_notMem fun hmem => hflag (hiff.1 hmem)
  · rfl

theorem mem_onSet {n : Nat} {S : Finset Nat} {c : FlagCall} (h : c.InRange n) {i : Nat} :
    i ∈ c.onSet n S ↔ if i = c.place n then c.flag = true else i ∈ S := by
  rw [onSet, if_pos h]
  by_cases hi : i = c.place n <;> cases c.flag <;> simp [hi]

end FlagCall

namespace WorkingSet

variable {K : Type}

def call (w : WorkingSet K) (c : FlagCall) : Except (Fault K) (WorkingSet K) :=
  if c.flag then w.activate c.position else w.deactivate c.position

/-- The working set after a call; a refused one leaves it as it is. -/
def after (w : WorkingSet K) (c : FlagCall) : WorkingSet K :=
  match w.call c with
  | .ok w' => w'
  | .error _ => w

def afterAll (w : WorkingSet K) (calls : List FlagCall) : WorkingSet K := calls.foldl after w

/-- The positions at which a mask is set. -/
def positions (mask : List Bool) : Finset Nat :=
  (Finset.range mask.length).filter fun i => mask[i]? = some true

theorem mem_positions {mask : List Bool} {i : Nat} : i ∈ positions mask ↔ mask[i]? = some true := by
  rw [positions, Finset.mem_filter, Finset.mem_range]
  exact and_iff_right_of_imp fun h => (List.getElem?_eq_some_iff.1 h).1

/-! ## One call -/

theorem call_eq_change (w : WorkingSet K) (c : FlagCall) :
    w.call c = w.change c.position c.flag c.complaint := by
  obtain ⟨ix, flag⟩ := c
  cases flag <;> rfl

theorem call_of_refused {w : WorkingSet K} {c : FlagCall} (h : c.Refused w.size (positions w.active)) :
    w.call c = .error (if c.InRange w.size then .refused c.complaint else .outOfRange) := by
  rw [call_eq_change, change, FlagCall.place?_position]
  split_ifs with hrange
  · have hlt : c.place w.size < w.active.length :=
      (FlagCall.place_lt hrange).trans_eq w.size_eq.symm
    have hiff := h.resolve_left (not_not_intro hrange)
    rw [mem_positions, List.getElem?_eq_getElem hlt, Option.some.injEq, Bool.coe_iff_coe] at hiff
    exact if_pos ((List.getElem?_eq_getElem hlt).trans (congrArg some hiff))
  · rfl

theorem call_of_not_refused {w : WorkingSet K} {c : FlagCall}
    (h : ¬c.Refused w.size (positions w.active)) :
    ∃ w', w.call c = .ok w' ∧ w'.factors = w.factors ∧
      w'.active = w.active.set (c.place w.size) c.flag := by
  rw [FlagCall.Refused, not_or, not_not] at h
  obtain ⟨hrange, hiff⟩ := h
  rw [call_eq_change, change, FlagCall.place?_position, if_pos hrange]
  have hne : w.active[c.place w.size]? ≠ some c.flag := by
    intro hflag
    rw [mem_positions, hflag, Option.some.injEq] at hiff
    exact hiff Iff.rfl
  exact ⟨_, if_neg hne, rfl, rfl⟩

theorem factors_after (w : WorkingSet K) (c : FlagCall) : (w.after c).factors = w.factors := by
  by_cases h : c.Refused w.size (positions w.active)
  · rw [after, call_of_refused h]
  · obtain ⟨w', hw', hfactors, _⟩ := call_of_not_refused h
    rw [after, hw', hfactors]

/-- A call does to the active positions what it does to a set. -/
theorem positions_after (w : WorkingSet K) (c : FlagCall) :
    positions (w.after c).active = c.onSet w.size (positions w.active) := by
  by_cases h : c.Refused w.size (positions w.active)
  · rw [after, call_of_refused h, FlagCall.onSet_of_refused h]
  · obtain ⟨w', hw', _, hactive⟩ := call_of_not_refused h
    obtain ⟨hrange, _⟩ := not_or.1 h
    rw [not_not] at hrange
    have hlt : c.place w.size < w.active.length :=
      (FlagCall.place_lt hrange).trans_eq w.size_eq.symm
    ext i
    rw [after, hw', hactive, FlagCall.mem_onSet hrange, mem_positions, mem_positions,
      List.getElem?_set]
    by_cases hi : i = c.place w.size
    · rw [if_pos hi.symm, if_pos hlt, if_pos hi, Option.some.injEq]
    · rw [if_neg (Ne.symm hi), if_neg hi]

/-! ## Views -/

theorem perm_indices (w : WorkingSet K) :
    (w.activeIndices ++ w.inactiveIndices).Perm (List.range w.size) := by
  have hnot : ∀ i ∈ List.range w.size,
      decide (w.active[i]? = some false) = !decide (w.active[i]? = some true) := by
    intro i hi
    have hlt : i < w.active.length := (List.mem_range.1 hi).trans_eq w.size_eq.symm
    rw [List.getElem?_eq_getElem hlt]
    cases w.active[i] <;> rfl
  rw [activeIndices, inactiveIndices, positions_flagged, positions_flagged, List.filter_congr hnot]
  exact List.filter_append_perm ..

theorem toFinset_activeIndices (w : WorkingSet K) : w.activeIndices.toFinset = positions w.active := by
  ext i
  rw [List.mem_toFinset, mem_activeIndices, mem_positions]

theorem length_activeIndices (w : WorkingSet K) : w.activeIndices.length = w.activeCount := by
  have hflags : w.numbered.map (·.1.2) = w.active := by
    have hzip : (w.numbered.map Prod.fst).map Prod.snd = w.active := by
      rw [numbered, List.zipIdx_map_fst, List.map_snd_zip]
      exact w.size_eq.le
    rwa [List.map_map] at hzip
  rw [activeCount, ← hflags, List.count, List.countP_map, List.countP_eq_length_filter, activeIndices,
    flagged, List.length_map, List.length_map]
  exact congrArg List.length (List.filter_congr fun e _ => by simp)

/-- All that a working set over `factors` shows of its flags are views of the set `S`. -/
structure Shows (w : WorkingSet K) (factors : List (Inequality K)) (S : Finset Nat) : Prop where
  factors_eq : w.factors = factors
  mem_iff : ∀ i, i ∈ S ↔ w.active[i]? = some true
  toFinset_activeIndices : w.activeIndices.toFinset = S
  pairwise_activeIndices : w.activeIndices.Pairwise (· < ·)
  pairwise_inactiveIndices : w.inactiveIndices.Pairwise (· < ·)
  perm_indices : (w.activeIndices ++ w.inactiveIndices).Perm (List.range factors.length)
  activeCount_eq : w.activeCount = S.card
  asEqualities_eq : List.Forall₂ (fun i c => ∃ f, factors[i]? = some f ∧ c = f.toEquality ∧
    c.dual = f.dual) w.activeIndices w.asEqualities

theorem shows_positions (w : WorkingSet K) : w.Shows w.factors (positions w.active) where
  factors_eq := rfl
  mem_iff _ := mem_positions
  toFinset_activeIndices := w.toFinset_activeIndices
  pairwise_activeIndices := List.pairwise_map.2 (w.pairwise_flagged true)
  pairwise_inactiveIndices := List.pairwise_map.2 (w.pairwise_flagged false)
  perm_indices := w.perm_indices
  activeCount_eq := by
    have hnodup : w.activeIndices.Nodup := List.nodup_range.sublist w.sublist_activeIndices
    rw [← w.toFinset_activeIndices, List.toFinset_card_of_nodup hnodup, length_activeIndices]
  asEqualities_eq := by
    rw [activeIndices, asEqualities, List.forall₂_map_left_iff, List.forall₂_map_right_iff,
      List.forall₂_same]
    exact fun e he => ⟨e.1, (mem_flagged.1 he).1, rfl, rfl⟩

/-! ## Any calls -/

theorem factors_afterAll (w : WorkingSet K) (calls : List FlagCall) :
    (w.afterAll calls).factors = w.factors := by
  induction calls generalizing w with
  | nil => rfl
  | cons c calls ih => exact (ih (w.after c)).trans (w.factors_after c)

theorem positions_afterAll (w : WorkingSet K) (calls : List FlagCall) :
    positions (w.afterAll calls).active =
      calls.foldl (FlagCall.onSet w.size) (positions w.active) := by
  induction calls generalizing w with
  | nil => rfl
  | cons c calls ih =>
      have hsize : (w.after c).size = w.size := congrArg List.length (w.factors_after c)
      rw [List.foldl_cons, ← positions_after, ← hsize]
      exact ih (w.after c)

/--
A working set with any mask stands for the set of its active positions: after any calls all its views
show what the calls make of that set. It refuses those calls that have no position or change nothing,
and keeps its flags then. Its active indices tell it apart from all with other flags.
-/
theorem shows_afterAll {factors : List (Inequality K)} {mask : List Bool}
    (h : mask.length = factors.length) :
    ∃ w, ofMask factors mask = .ok w ∧ ∀ calls : List FlagCall,
      let v := w.afterAll calls
      let S := calls.foldl (FlagCall.onSet factors.length) (positions mask)
      v.Shows factors S ∧
        (∀ c : FlagCall, ((∃ fault, v.call c = .error fault) ↔ c.Refused factors.length S) ∧
          (c.Refused factors.length S → v.after c = v ∧ v.call c =
            .error (if c.InRange factors.length then .refused c.complaint else .outOfRange))) ∧
        ∀ w' : WorkingSet K, w'.size = factors.length →
          (v.activeIndices = w'.activeIndices ↔ v.active = w'.active) := by
  refine ⟨⟨factors, mask, h⟩, dif_pos h, fun calls => ?_⟩
  generalize hv : afterAll ⟨factors, mask, h⟩ calls = v
  have hfactors : v.factors = factors := hv ▸ factors_afterAll ..
  have hsize : v.size = factors.length := congrArg List.length hfactors
  have hset : positions v.active = calls.foldl (FlagCall.onSet factors.length) (positions mask) :=
    hv ▸ positions_afterAll ⟨factors, mask, h⟩ calls
  dsimp only
  rw [← hset, ← hsize]
  refine ⟨hfactors ▸ v.shows_positions, fun c => ⟨⟨?_, ?_⟩, ?_⟩, fun w' hw' => ?_⟩
  · rintro ⟨fault, hfault⟩
    by_contra hc
    obtain ⟨_, hok, _⟩ := call_of_not_refused hc
    cases hok.symm.trans hfault
  · exact fun hc => ⟨_, call_of_refused hc⟩
  · intro hc
    refine ⟨?_, call_of_refused hc⟩
    rw [after, call_of_refused hc]
  · exact activeIndices_eq_iff hw'.symm

end WorkingSet

namespace OneVariable

/-- Three inequalities, with positions that are named from both ends, twice, or do not exist. -/
theorem shows_afterAll_interval : [false, true, false].length = 3 ∧
    ∃ w, WorkingSet.ofMask [atMost 1 3 0, atMost (-1) 0 1, atMost 1 5 2] [false, true, false] = .ok w ∧
      (w.afterAll [⟨-1, true⟩, ⟨2, true⟩, ⟨1, false⟩, ⟨5, true⟩, ⟨-3, true⟩]).Shows
        [atMost 1 3 0, atMost (-1) 0 1, atMost 1 5 2] {0, 2} ∧
      (∃ fault, (w.afterAll [⟨-1, true⟩]).call ⟨2, true⟩ = .error fault) ∧
      (w.afterAll [⟨-1, true⟩]).after ⟨3, false⟩ = w.afterAll [⟨-1, true⟩] := by
  have hlength : [false, true, false].length =
      [atMost 1 3 0, atMost (-1) 0 1, atMost 1 5 2].length := rfl
  obtain ⟨w, hw, h⟩ := WorkingSet.shows_afterAll hlength
  refine ⟨rfl, w, hw, ?_, ?_, ?_⟩
  · have hshows := (h [⟨-1, true⟩, ⟨2, true⟩, ⟨1, false⟩, ⟨5, true⟩, ⟨-3, true⟩]).1
    have hset : [⟨-1, true⟩, ⟨2, true⟩, ⟨1, false⟩, ⟨5, true⟩, ⟨-3, true⟩].foldl
        (FlagCall.onSet 3) (WorkingSet.positions [false, true, false]) = {0, 2} := by decide
    rwa [← hset]
  · refine ((h [⟨-1, true⟩]).2.1 ⟨2, true⟩).1.2 (.inr ?_)
    decide
  · refine (((h [⟨-1, true⟩]).2.1 ⟨3, false⟩).2 (.inl ?_)).1
    decide

end OneVariable

end ActiveSet
