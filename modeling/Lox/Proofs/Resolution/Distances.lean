import Lox.Machine
import Lox.Proofs.Resolution.Walk

/-!
# The distances of a program

If every occurrence has an identity of its own, then the distance that is noted at
a visit is still there at the end of the walk, and also after the distances of the
program were added to those of other programs.
-/

namespace Lox

open Resolution

/-! ### The distances of visits -/

def Visit.distance? (v : Visit) : Option Nat :=
  Resolution.distance? v.state.scopes v.place.name

theorem Visit.getElem?_note (distances : Distances) (v : Visit) (id : Nat) :
    (v.note distances)[id]? =
      if id = v.place.id then v.distance?.or distances[id]? else distances[id]? := by
  unfold Visit.note Visit.distance?
  cases Resolution.distance? v.state.scopes v.place.name with
  | none => simp
  | some distance =>
    simp only [Std.TreeMap.getElem?_insert]
    by_cases hid : id = v.place.id
    · simp [hid]
    · have hne : ¬ compare v.place.id id = .eq := by
        intro hsame
        exact hid (Std.LawfulEqCmp.eq_of_compare hsame).symm
      simp [hid, hne]

/-- Visits of other occurrences do not touch a distance. -/
theorem getElem?_foldl_note_of_notMem {visits : List Visit} {id : Nat}
    (h : id ∉ visits.map fun v => v.place.id) (distances : Distances) :
    (visits.foldl Visit.note distances)[id]? = distances[id]? := by
  induction visits generalizing distances with
  | nil => rfl
  | cons v visits ih =>
    rw [List.map_cons, List.mem_cons, not_or] at h
    rw [List.foldl_cons, ih h.2, Visit.getElem?_note, if_neg h.1]

theorem getElem?_foldl_note {visits : List Visit}
    (hnodup : (visits.map fun v => v.place.id).Nodup) {v : Visit} (hv : v ∈ visits)
    (distances : Distances) :
    (visits.foldl Visit.note distances)[v.place.id]? =
      v.distance?.or distances[v.place.id]? := by
  induction visits generalizing distances with
  | nil => exact absurd hv List.not_mem_nil
  | cons u visits ih =>
    rw [List.map_cons, List.nodup_cons] at hnodup
    rw [List.foldl_cons]
    rcases List.mem_cons.mp hv with rfl | hv
    · rw [getElem?_foldl_note_of_notMem hnodup.1, Visit.getElem?_note, if_pos rfl]
    · have hne : v.place.id ≠ u.place.id := by
        intro heq
        exact hnodup.1 (heq ▸ List.mem_map_of_mem hv)
      rw [ih hnodup.2 hv, Visit.getElem?_note, if_neg hne]

/-! ### The distances of a program -/

/-- What a resolution without errors yields. -/
theorem distances_of_run {program : List Stmt} {distances : Distances}
    (h : Resolution.run program = .ok distances) :
    (Stmt.resolveEach program {}).errors = [] ∧
      distances = (Stmt.visitsEach program {}).foldl Visit.note ∅ := by
  by_cases hclean : (Stmt.resolveEach program {}).errors = []
  · have hdistances := (Stmt.walkedEach program {}).distances hclean
    simp only [Resolution.run, hclean, List.isEmpty_nil, if_true, Except.ok.injEq] at h
    exact ⟨hclean, h ▸ hdistances⟩
  · simp [Resolution.run, hclean] at h

theorem faultless_of_run {program : List Stmt} {distances : Distances}
    (h : Resolution.run program = .ok distances) :
    ∀ v ∈ Stmt.visitsEach program {}, v.Faultless :=
  (Stmt.walkedEach program {}).faultless (distances_of_run h).1

theorem nodup_visitsEach {program : List Stmt}
    (h : ((Stmt.occurrencesEach program).map fun entry => entry.2.id).Nodup) (r : Resolution) :
    ((Stmt.visitsEach program r).map fun v => v.place.id).Nodup := by
  have hperm := (Stmt.perm_visitsEach r program).map fun entry => entry.2.id
  rw [List.map_map] at hperm
  exact hperm.nodup_iff.mpr h

theorem getElem?_of_run {program : List Stmt} {distances : Distances}
    (h : Resolution.run program = .ok distances)
    (hnodup : ((Stmt.occurrencesEach program).map fun entry => entry.2.id).Nodup) {v : Visit}
    (hv : v ∈ Stmt.visitsEach program {}) : distances[v.place.id]? = v.distance? := by
  rw [(distances_of_run h).2, getElem?_foldl_note (nodup_visitsEach hnodup {}) hv]
  simp

/-- A program has distances for its own occurrences only. -/
theorem mem_visits_of_getElem? {program : List Stmt} {distances : Distances}
    (h : Resolution.run program = .ok distances) {id d : Nat} (hid : distances[id]? = some d) :
    id ∈ (Stmt.visitsEach program {}).map fun v => v.place.id := by
  apply Classical.byContradiction
  intro habsent
  rw [(distances_of_run h).2, getElem?_foldl_note_of_notMem habsent] at hid
  simp at hid

/-! ### The distances of a session -/

theorem getElem?_insert_list (entries : List (NodeId × Nat))
    (hdistinct : entries.Pairwise fun a b => ¬ compare a.1 b.1 = .eq) (all : Distances) (id : Nat) :
    (entries.foldl (fun all entry => all.insert entry.1 entry.2) all)[id]? =
      ((entries.find? fun entry => entry.1 = id).map Prod.snd).or all[id]? := by
  induction entries generalizing all with
  | nil => rfl
  | cons entry entries ih =>
    rw [List.pairwise_cons] at hdistinct
    rw [List.foldl_cons, ih hdistinct.2, List.find?_cons, Std.TreeMap.getElem?_insert]
    by_cases hid : entry.1 = id
    · have hnone : entries.find? (fun other => decide (other.1 = id)) = none := by
        rw [List.find?_eq_none]
        intro other hother hsame
        have hdiffers := hdistinct.1 other hother
        rw [of_decide_eq_true hsame, hid] at hdiffers
        exact hdiffers (by simp)
      rw [hnone]
      simp [hid]
    · simp [hid]

/-- A machine that learned distances looks into the new ones first. -/
theorem getElem?_learn (m : Machine) (distances : Distances) (id : Nat) :
    (m.learn distances).distances[id]? = distances[id]?.or m.distances[id]? := by
  unfold Machine.learn
  rw [Std.TreeMap.foldl_eq_foldl_toList,
    getElem?_insert_list _ Std.TreeMap.distinct_keys_toList]
  congr 1
  cases hfound : distances.toList.find? fun entry => decide (entry.1 = id) with
  | none =>
    cases hget : distances[id]? with
    | none => rfl
    | some d =>
      have hmem := Std.TreeMap.mem_toList_iff_getElem?_eq_some.mpr hget
      have habsent := List.find?_eq_none.mp hfound (id, d) hmem
      simp at habsent
  | some entry =>
    have hmem := List.mem_of_find?_eq_some hfound
    have hid : entry.1 = id := by simpa using List.find?_some hfound
    have hget : distances[entry.1]? = some entry.2 :=
      Std.TreeMap.mem_toList_iff_getElem?_eq_some.mp hmem
    rw [hid] at hget
    rw [hget]
    rfl

end Lox
