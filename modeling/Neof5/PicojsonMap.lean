import Neof5.PicojsonLemmas

/-!
# Objects as maps

A `std::map` has its members in the order of their keys. An object that is filled member by member
(`ofMembers`) is the one such map in which each key has the value of its last member
(`isMapOf_iff`).
-/

namespace Neof5

namespace Json

variable {ν : Type} {o : List (Bytes × Json ν)} {key k : Bytes} {v : Json ν}

/-- The members in the order of their keys, each key once. -/
def Sorted (o : List (Bytes × Json ν)) : Prop := o.Pairwise fun m m' => m.1 < m'.1

/-- The object with the given members, one put in after the other. -/
def ofMembers (ms : List (Bytes × Json ν)) : List (Bytes × Json ν) :=
  ms.foldl (fun o m => set m.1 m.2 o) []

theorem mem_set {m : Bytes × Json ν} (h : m ∈ set key v o) : m = (key, v) ∨ m ∈ o := by
  induction o with
  | nil => exact .inl (by simpa [set] using h)
  | cons m' o ih =>
    obtain ⟨k, w⟩ := m'
    rw [set] at h
    split_ifs at h
    · rcases List.mem_cons.mp h with h | h
      · exact .inl h
      · exact .inr (by simp [h])
    · simpa using h
    · rcases List.mem_cons.mp h with h | h
      · exact .inr (by simp [h])
      · exact (ih h).imp_right (by simp +contextual)

theorem sorted_set (h : Sorted o) : Sorted (set key v o) := by
  induction o with
  | nil => simp [set, Sorted]
  | cons m o ih =>
    obtain ⟨k, w⟩ := m
    obtain ⟨hk, ho⟩ := List.pairwise_cons.mp h
    rw [set]
    split_ifs with heq hlt
    · subst heq
      exact List.pairwise_cons.mpr ⟨hk, ho⟩
    · refine List.pairwise_cons.mpr ⟨fun m hm => ?_, h⟩
      rcases List.mem_cons.mp hm with rfl | hm
      · exact hlt
      · exact List.lt_trans hlt (hk m hm)
    · have hgt : k < key := by
        by_contra hle
        exact heq (List.le_antisymm (List.not_lt.mp hle) (List.not_lt.mp hlt))
      refine List.pairwise_cons.mpr ⟨fun m hm => ?_, ih ho⟩
      rcases mem_set hm with rfl | hm
      · exact hgt
      · exact hk m hm

/-- `std::map::operator[]` -/
theorem lookup_set : (set key v o).lookup k = if k = key then some v else o.lookup k := by
  induction o with
  | nil =>
    rw [set, List.lookup_cons]
    split_ifs with h
    · simp [h]
    · simp [beq_eq_false_iff_ne.mpr h]
  | cons m o ih =>
    obtain ⟨k', w⟩ := m
    rw [set]
    split_ifs with heq hlt hk hk hk <;> grind

/-- A key behind all others. -/
theorem set_last (h : ∀ m ∈ o, m.1 < key) : set key v o = o ++ [(key, v)] := by
  induction o with
  | nil => rfl
  | cons m o ih =>
    obtain ⟨k, w⟩ := m
    have hlt : k < key := h (k, w) (by simp)
    have hne : key ≠ k := by
      rintro rfl
      exact List.lt_irrefl _ hlt
    rw [set, if_neg hne, if_neg (List.lt_asymm hlt), ih fun m hm => h m (by simp [hm])]
    rfl

theorem sorted_foldl (ms : List (Bytes × Json ν)) (h : Sorted o) :
    Sorted (ms.foldl (fun o m => set m.1 m.2 o) o) := by
  induction ms generalizing o with
  | nil => exact h
  | cons m ms ih => exact ih (sorted_set h)

theorem sorted_ofMembers (ms : List (Bytes × Json ν)) : Sorted (ofMembers ms) :=
  sorted_foldl ms List.Pairwise.nil

theorem mem_foldl {ms : List (Bytes × Json ν)} {m : Bytes × Json ν}
    (h : m ∈ ms.foldl (fun o m => set m.1 m.2 o) o) : m ∈ ms ∨ m ∈ o := by
  induction ms generalizing o with
  | nil => exact .inr h
  | cons m' ms ih =>
    rcases ih h with h | h
    · exact .inl (by simp [h])
    · rcases mem_set h with rfl | h
      · exact .inl (by simp)
      · exact .inr h

theorem mem_ofMembers {ms : List (Bytes × Json ν)} {m : Bytes × Json ν} (h : m ∈ ofMembers ms) :
    m ∈ ms := (mem_foldl h).resolve_right (by simp)

/-- Members in the order of their keys are put in one behind the other. -/
theorem foldl_sorted {ms : List (Bytes × Json ν)} (h : Sorted (o ++ ms)) :
    ms.foldl (fun o m => set m.1 m.2 o) o = o ++ ms := by
  induction ms generalizing o with
  | nil => simp
  | cons m ms ih =>
    have hlast : ∀ m' ∈ o, m'.1 < m.1 := fun m' hm' =>
      (List.pairwise_append.mp h).2.2 m' hm' m (by simp)
    rw [List.foldl_cons, set_last hlast, ih (by simpa using h)]
    simp

theorem ofMembers_sorted (h : Sorted o) : ofMembers o = o := foldl_sorted h

/-- Of the members with one key the last one counts. -/
theorem lookup_ofMembers (ms : List (Bytes × Json ν)) :
    (ofMembers ms).lookup k = ms.reverse.lookup k := by
  induction ms using List.reverseRecOn with
  | nil => rfl
  | append_singleton ms m ih =>
    rw [ofMembers, List.foldl_concat, lookup_set, List.reverse_concat, List.lookup_cons]
    split_ifs with h
    · simp [h]
    · rw [beq_eq_false_iff_ne.mpr h]
      exact ih

theorem lookup_of_lt (h : ∀ m ∈ o, k < m.1) : o.lookup k = none := by
  rw [List.lookup_eq_none_iff]
  intro m hm
  rw [bne_iff_ne]
  rintro rfl
  exact List.lt_irrefl _ (h m hm)

/-- Members in the order of their keys are determined by what is found under each key. -/
theorem sorted_ext {o' : List (Bytes × Json ν)} (h : Sorted o) (h' : Sorted o')
    (hlookup : ∀ k, o.lookup k = o'.lookup k) : o = o' := by
  induction o generalizing o' with
  | nil =>
    cases o' with
    | nil => rfl
    | cons m o' =>
      obtain ⟨k, v⟩ := m
      simpa using hlookup k
  | cons m o ih =>
    obtain ⟨k, v⟩ := m
    obtain ⟨hk, ho⟩ := List.pairwise_cons.mp h
    cases o' with
    | nil => simpa using hlookup k
    | cons m' o' =>
      obtain ⟨k', v'⟩ := m'
      obtain ⟨hk', ho'⟩ := List.pairwise_cons.mp h'
      have hnot : ¬ k < k' := fun hlt => by
        have hnone : ((k', v') :: o').lookup k = none := lookup_of_lt fun m hm => by
          rcases List.mem_cons.mp hm with rfl | hm
          · exact hlt
          · exact List.lt_trans hlt (hk' m hm)
        simp [← hlookup k] at hnone
      have hnot' : ¬ k' < k := fun hlt => by
        have hnone : ((k, v) :: o).lookup k' = none := lookup_of_lt fun m hm => by
          rcases List.mem_cons.mp hm with rfl | hm
          · exact hlt
          · exact List.lt_trans hlt (hk m hm)
        simp [hlookup k'] at hnone
      obtain rfl : k = k' := List.le_antisymm (List.not_lt.mp hnot') (List.not_lt.mp hnot)
      obtain rfl : v = v' := by simpa using hlookup k
      congr 1
      refine ih ho ho' fun j => ?_
      by_cases hj : j = k
      · rw [hj, lookup_of_lt hk, lookup_of_lt hk']
      · simpa [List.lookup_cons, beq_eq_false_iff_ne.mpr hj] using hlookup j

/-- The object that the members of a text make up: the last one of each key counts. -/
structure IsMapOf (o ms : List (Bytes × Json ν)) : Prop where
  sorted : Sorted o
  last : ∀ k, o.lookup k = ms.reverse.lookup k

theorem isMapOf_iff {ms : List (Bytes × Json ν)} : IsMapOf o ms ↔ o = ofMembers ms := by
  constructor
  · intro h
    exact sorted_ext h.sorted (sorted_ofMembers ms)
      fun k => (h.last k).trans (lookup_ofMembers ms).symm
  · rintro rfl
    exact ⟨sorted_ofMembers ms, fun _ => lookup_ofMembers ms⟩

/-- Induction over the values in a value. -/
@[elab_as_elim]
theorem induct {P : Json ν → Prop} (v : Json ν) (null : P .null) (bool : ∀ b, P (.bool b))
    (num : ∀ x, P (.num x)) (str : ∀ s, P (.str s)) (arr : ∀ a, (∀ v ∈ a, P v) → P (.arr a))
    (obj : ∀ o, (∀ m ∈ o, P m.2) → P (.obj o)) : P v :=
  @Json.rec ν P (fun a => ∀ v ∈ a, P v) (fun o => ∀ m ∈ o, P m.2) (fun m => P m.2) null bool num str
    arr obj (by simp) (fun _ _ h ih => List.forall_mem_cons.mpr ⟨h, ih⟩) (by simp)
    (fun _ _ h ih => List.forall_mem_cons.mpr ⟨h, ih⟩) (fun _ _ h => h) v

/-- All objects have their members in the order of the keys, as a `std::map` does. -/
inductive Ordered : Json ν → Prop
  | null : Ordered .null
  | bool {b : Bool} : Ordered (.bool b)
  | num {x : ν} : Ordered (.num x)
  | str {s : Bytes} : Ordered (.str s)
  | arr {a : List (Json ν)} : (∀ v ∈ a, Ordered v) → Ordered (.arr a)
  | obj {o : List (Bytes × Json ν)} : Sorted o → (∀ m ∈ o, Ordered m.2) → Ordered (.obj o)

/-- All numbers are such as `good` says. -/
inductive NumbersIn (good : ν → Prop) : Json ν → Prop
  | null : NumbersIn good .null
  | bool {b : Bool} : NumbersIn good (.bool b)
  | num {x : ν} : good x → NumbersIn good (.num x)
  | str {s : Bytes} : NumbersIn good (.str s)
  | arr {a : List (Json ν)} : (∀ v ∈ a, NumbersIn good v) → NumbersIn good (.arr a)
  | obj {o : List (Bytes × Json ν)} : (∀ m ∈ o, NumbersIn good m.2) → NumbersIn good (.obj o)

end Json

end Neof5
