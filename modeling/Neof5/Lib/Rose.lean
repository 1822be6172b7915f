import Mathlib

/-!
# Rose trees and the positions of their nodes

A position is the list of the child indices on the way to a node, the last step first: `[]` is
the root, `i :: p` the `i`-th child of the node at `p`. So the parent of a position is its tail,
and a tree that only ever appends children keeps the positions of its nodes: they serve as
pointers.

* `get? t p`: the subtree at `p`; `label? t p`: its label.
* `modify t p f`: the tree with `f` applied to the subtree at `p`.
* `frontier P t`: on each branch the first node below the root that satisfies `P`.

`modify` changes no label away from `p` (`label?_modify_of_not_suffix`), and two changes at
different positions of one depth commute (`modify_comm`). The frontier goes from left to right
(`frontier_sorted`), and it is empty only if no node below the root satisfies `P` (`exists_first`).
-/

/-- A tree whose nodes have a label and a list of children. -/
inductive Rose (β : Type*) where
  | node (label : β) (children : List (Rose β))

namespace Rose

variable {β : Type*}

def label : Rose β → β
  | node b _ => b

def children : Rose β → List (Rose β)
  | node _ cs => cs

@[simp] theorem label_node (b : β) (cs : List (Rose β)) : (node b cs).label = b := rfl

@[simp] theorem children_node (b : β) (cs : List (Rose β)) : (node b cs).children = cs := rfl

/-- The subtree at a position. -/
def get? (t : Rose β) : List Nat → Option (Rose β)
  | [] => some t
  | i :: p => (get? t p).bind fun n => n.children[i]?

/-- The label at a position. -/
def label? (t : Rose β) (p : List Nat) : Option β := (t.get? p).map label

/-- The tree with the subtree at a position changed. -/
def modify (t : Rose β) : List Nat → (Rose β → Rose β) → Rose β
  | [], f => f t
  | i :: p, f => modify t p fun n => node n.label (n.children.modify i f)

@[simp] theorem get?_nil (t : Rose β) : t.get? [] = some t := rfl

theorem get?_cons (t : Rose β) (i : Nat) (p : List Nat) :
    t.get? (i :: p) = (t.get? p).bind fun n => n.children[i]? := rfl

theorem get?_append (t : Rose β) (q p : List Nat) :
    t.get? (q ++ p) = (t.get? p).bind fun n => n.get? q := by
  induction q with
  | nil => simp
  | cons i q ih => simp only [List.cons_append, get?_cons, ih, Option.bind_assoc]

/-- The subtree at a position inside a child. -/
theorem get?_snoc (t : Rose β) (q : List Nat) (i : Nat) :
    t.get? (q ++ [i]) = t.children[i]?.bind fun n => n.get? q := by
  rw [get?_append]; rfl

@[simp] theorem label?_nil (t : Rose β) : t.label? [] = some t.label := rfl

theorem label?_of_get? {t n : Rose β} {p : List Nat} (h : t.get? p = some n) :
    t.label? p = some n.label := by simp [label?, h]

theorem label?_eq_some {t : Rose β} {p : List Nat} {b : β} :
    t.label? p = some b ↔ ∃ n, t.get? p = some n ∧ n.label = b := by
  simp [label?]

/-- Above a node there are nodes. -/
theorem exists_above {t : Rose β} {q p : List Nat} {b : β} (h : t.label? (q ++ p) = some b) :
    ∃ a, t.label? p = some a := by
  obtain ⟨n, hn, -⟩ := label?_eq_some.mp h
  rw [get?_append, Option.bind_eq_some_iff] at hn
  obtain ⟨m, hm, -⟩ := hn
  exact ⟨m.label, label?_of_get? hm⟩

/-- A leaf has no node below it. -/
theorem get?_of_leaf {t : Rose β} (h : t.children = []) {p : List Nat} (hp : p ≠ []) :
    t.get? p = none := by
  obtain ⟨q, i, rfl⟩ := (List.eq_nil_or_concat p).resolve_left hp
  rw [List.concat_eq_append, get?_snoc, h]
  rfl

/-- The position of a node's parent holds a node. -/
theorem exists_parent {t : Rose β} {i : Nat} {p : List Nat} {b : β}
    (h : t.label? (i :: p) = some b) : ∃ n c, t.get? p = some n ∧ n.children[i]? = some c ∧
      c.label = b := by
  obtain ⟨c, hc, hb⟩ := label?_eq_some.mp h
  rw [get?_cons, Option.bind_eq_some_iff] at hc
  obtain ⟨n, hn, hc⟩ := hc
  exact ⟨n, c, hn, hc, hb⟩

/-! ## Changes -/

theorem get?_modify (t : Rose β) (p : List Nat) (f : Rose β → Rose β) :
    (t.modify p f).get? p = (t.get? p).map f := by
  induction p generalizing f with
  | nil => rfl
  | cons i p ih =>
    rw [modify, get?_cons, ih, get?_cons]
    cases t.get? p <;> simp

theorem label?_modify_self {t n : Rose β} {p : List Nat} (h : t.get? p = some n) (n' : Rose β) :
    (t.modify p fun _ => n').label? p = some n'.label := by
  rw [label?, get?_modify, h]; rfl

/-- Below the position of a change. -/
theorem get?_modify_append (t : Rose β) (p : List Nat) (f : Rose β → Rose β) (q : List Nat) :
    (t.modify p f).get? (q ++ p) = (t.get? p).bind fun n => (f n).get? q := by
  rw [get?_append, get?_modify]; cases t.get? p <;> rfl

/-- A change keeps the labels of all nodes that are not below it. -/
theorem label?_modify_of_not_suffix {t : Rose β} {p q : List Nat} (h : ¬ p <:+ q)
    (f : Rose β → Rose β) : (t.modify p f).label? q = t.label? q := by
  induction p generalizing f with
  | nil => exact (h (List.nil_suffix)).elim
  | cons i p ih =>
    rw [modify]
    by_cases hp : p <:+ q
    · obtain ⟨r, rfl⟩ := hp
      rw [label?, get?_modify_append, label?, get?_append]
      cases t.get? p with
      | none => rfl
      | some n =>
        simp only [Option.bind_some]
        -- The position is the node at `p` itself, or in another child of it.
        rcases List.eq_nil_or_concat r with rfl | ⟨r', j, rfl⟩
        · rfl
        · have hij : i ≠ j := by
            rintro rfl
            exact h ⟨r', by simp⟩
          rw [List.concat_eq_append, get?_snoc, get?_snoc, children_node,
            List.getElem?_modify_ne _ _ hij]
    · exact ih hp _

/-- The labels after a node with leaves for its children was put in the place of another. -/
theorem label?_modify_cases {t n n' : Rose β} {p q : List Nat} {b : β} (hp : t.get? p = some n)
    (hleaf : ∀ c ∈ n'.children, c.children = [])
    (h : (t.modify p fun _ => n').label? q = some b) :
    (q = p ∧ n'.label = b) ∨ (∃ i c, q = i :: p ∧ n'.children[i]? = some c ∧ c.label = b) ∨
      (¬ p <:+ q ∧ t.label? q = some b) := by
  by_cases hs : p <:+ q
  · obtain ⟨r, rfl⟩ := hs
    obtain ⟨c, hc, hb⟩ := label?_eq_some.mp h
    rw [get?_modify_append, hp, Option.bind_some] at hc
    rcases List.eq_nil_or_concat r with rfl | ⟨r', i, rfl⟩
    · cases hc
      exact .inl ⟨rfl, hb⟩
    · rw [List.concat_eq_append, get?_snoc, Option.bind_eq_some_iff] at hc
      obtain ⟨m, hm, hc⟩ := hc
      by_cases hr : r' = []
      · subst hr
        cases hc
        exact .inr (.inl ⟨i, c, rfl, hm, hb⟩)
      · rw [get?_of_leaf (hleaf m (List.mem_of_getElem? hm)) hr] at hc
        cases hc
  · rw [label?_modify_of_not_suffix hs] at h
    exact .inr (.inr ⟨hs, h⟩)

/-- A change keeps the labels of all nodes that lie no deeper, its own position apart. -/
theorem label?_modify_of_length_le {t : Rose β} {p q : List Nat} (hl : q.length ≤ p.length)
    (hne : q ≠ p) (f : Rose β → Rose β) : (t.modify p f).label? q = t.label? q :=
  label?_modify_of_not_suffix
    (fun hs => hne (hs.eq_of_length (by have := hs.length_le; omega)).symm) f

/-- A change keeps the subtrees at the other positions of its depth. -/
theorem get?_modify_of_length_eq {t : Rose β} {p q : List Nat} (hl : q.length = p.length)
    (hne : q ≠ p) (f : Rose β → Rose β) : (t.modify p f).get? q = t.get? q := by
  induction p generalizing q f with
  | nil => exact (hne (List.eq_nil_of_length_eq_zero hl)).elim
  | cons i p ih =>
    cases q with
    | nil => cases hl
    | cons j q =>
      rw [modify, get?_cons, get?_cons]
      by_cases hpq : q = p
      · subst hpq
        have hij : i ≠ j := by rintro rfl; exact hne rfl
        rw [get?_modify]
        cases t.get? q <;> simp [List.getElem?_modify_ne _ _ hij]
      · rw [ih (by simpa using hl) hpq]

/-- A change below the root keeps the number of the root's children. -/
theorem length_children_modify (t : Rose β) (i : Nat) (p : List Nat) (f : Rose β → Rose β) :
    (t.modify (i :: p) f).children.length = t.children.length := by
  induction p generalizing i f with
  | nil => simp [modify]
  | cons j p ih => exact ih j _

theorem modify_modify (t : Rose β) (p : List Nat) (f g : Rose β → Rose β) :
    (t.modify p f).modify p g = t.modify p fun n => g (f n) := by
  induction p generalizing f g with
  | nil => rfl
  | cons i p ih =>
    simp only [modify, ih, label_node, children_node, List.modify_modify_eq]
    rfl

/-- Changes at different positions of one depth commute. -/
theorem modify_comm {t : Rose β} {p q : List Nat} (hl : q.length = p.length) (hne : q ≠ p)
    (f g : Rose β → Rose β) : (t.modify p f).modify q g = (t.modify q g).modify p f := by
  induction p generalizing q f g with
  | nil => exact (hne (List.eq_nil_of_length_eq_zero hl)).elim
  | cons i p ih =>
    cases q with
    | nil => cases hl
    | cons j q =>
      simp only [modify]
      by_cases hpq : q = p
      · subst hpq
        have hij : i ≠ j := by rintro rfl; exact hne rfl
        rw [modify_modify, modify_modify]
        simp only [label_node, children_node, List.modify_modify_ne _ _ _ hij]
      · exact ih (by simpa using hl) hpq _ _

/-! ## The first nodes on the branches -/

/-- On the way from the root to the position `q` the first node that satisfies `P` is the one at
`q`, with the label `b`; the root does not count. -/
structure First (P : β → Prop) (t : Rose β) (q : List Nat) (b : β) : Prop where
  below : q ≠ []
  label : t.label? q = some b
  holds : P b
  between : ∀ r a, r ≠ [] → r <:+ q → r ≠ q → t.label? r = some a → ¬ P a

mutual

/-- The first nodes on the branches that satisfy `P`, from left to right. -/
def frontier (P : β → Prop) [DecidablePred P] : Rose β → List (List Nat × β)
  | node _ cs => frontierFrom P 0 cs

/-- Those in and below the children from the one with the index `i` on. -/
def frontierFrom (P : β → Prop) [DecidablePred P] (i : Nat) : List (Rose β) → List (List Nat × β)
  | [] => []
  | node b ds :: cs =>
    (if P b then [([i], b)] else (frontier P (node b ds)).map fun x => (x.1 ++ [i], x.2)) ++
      frontierFrom P (i + 1) cs

end

section Frontier

variable {P : β → Prop}

/-- A first node is a child that satisfies `P`, or a first node below another one. -/
theorem first_snoc {t : Rose β} {r : List Nat} {j : Nat} {b : β} :
    First P t (r ++ [j]) b ↔ ∃ c, t.children[j]? = some c ∧
      (r = [] ∧ c.label = b ∧ P b ∨ ¬ P c.label ∧ First P c r b) := by
  have hlab : ∀ r, t.label? (r ++ [j]) = t.children[j]?.bind fun c => c.label? r := fun r => by
    rw [label?, get?_snoc]
    cases t.children[j]? <;> rfl
  constructor
  · intro h
    have hl := h.label
    rw [hlab, Option.bind_eq_some_iff] at hl
    obtain ⟨c, hc, hl⟩ := hl
    refine ⟨c, hc, ?_⟩
    by_cases hr : r = []
    · subst hr
      exact .inl ⟨rfl, by simpa using hl, h.holds⟩
    have hbetween : ∀ r' a, r' <:+ r → r' ≠ r → c.label? r' = some a → ¬ P a := by
      intro r' a hs hne ha
      refine h.between (r' ++ [j]) a (by simp) (List.suffix_concat_iff.mpr ?_) (by simpa using hne)
        (by rw [hlab, hc]; exact ha)
      exact .inr ⟨r', rfl, hs⟩
    exact .inr ⟨hbetween [] c.label List.nil_suffix (Ne.symm hr) rfl, hr, hl, h.holds,
      fun r' a _ => hbetween r' a⟩
  · rintro ⟨c, hc, h⟩
    have hl : c.label? r = some b := by
      rcases h with ⟨rfl, rfl, -⟩ | ⟨-, hf⟩
      · rfl
      · exact hf.label
    have hb : P b := by
      rcases h with ⟨-, -, hb⟩ | ⟨-, hf⟩
      · exact hb
      · exact hf.holds
    refine ⟨by simp, by rw [hlab, hc]; exact hl, hb, fun r' a hr hs hne ha => ?_⟩
    obtain ⟨r', rfl, hs'⟩ := (List.suffix_concat_iff.mp hs).resolve_left hr
    rw [hlab, hc] at ha
    have hne : r' ≠ r := fun e => hne (e ▸ rfl)
    rcases h with ⟨rfl, -⟩ | ⟨hn, hf⟩
    · exact (hne (List.suffix_nil.mp hs')).elim
    · by_cases hr' : r' = []
      · subst hr'; cases ha; exact hn
      · exact hf.between r' a hr' hs' hne ha

variable [DecidablePred P]

mutual

/-- The frontier is made of the first nodes. -/
theorem mem_frontier : ∀ (t : Rose β) (q : List Nat) (b : β),
    (q, b) ∈ frontier P t ↔ First P t q b
  | node a cs, q, b => by
    rw [frontier, mem_frontierFrom cs 0 q b]
    simp only [Nat.zero_add]
    constructor
    · rintro ⟨j, c, r, hc, rfl, h⟩
      exact first_snoc.mpr ⟨c, hc, h⟩
    · intro h
      obtain ⟨r, j, rfl⟩ := (List.eq_nil_or_concat q).resolve_left h.below
      rw [List.concat_eq_append] at h ⊢
      obtain ⟨c, hc, h⟩ := first_snoc.mp h
      exact ⟨j, c, r, hc, rfl, h⟩

theorem mem_frontierFrom : ∀ (cs : List (Rose β)) (i : Nat) (q : List Nat) (b : β),
    (q, b) ∈ frontierFrom P i cs ↔ ∃ j c r, cs[j]? = some c ∧ q = r ++ [i + j] ∧
      (r = [] ∧ c.label = b ∧ P b ∨ ¬ P c.label ∧ First P c r b)
  | [], i, q, b => by simp [frontierFrom]
  | node d ds :: cs, i, q, b => by
    rw [frontierFrom, List.mem_append, mem_frontierFrom cs (i + 1) q b]
    have hhere : (q, b) ∈ (if P d then [([i], d)] else
        (frontier P (node d ds)).map fun x => (x.1 ++ [i], x.2)) ↔
        ∃ r, q = r ++ [i] ∧ (r = [] ∧ d = b ∧ P b ∨ ¬ P d ∧ First P (node d ds) r b) := by
      split
      · rename_i hd
        simp only [List.mem_singleton, Prod.mk.injEq, hd, not_true_eq_false, false_and, or_false]
        constructor
        · rintro ⟨rfl, rfl⟩
          exact ⟨[], rfl, rfl, rfl, hd⟩
        · rintro ⟨r, rfl, rfl, rfl, -⟩
          exact ⟨rfl, rfl⟩
      · rename_i hd
        simp only [List.mem_map, Prod.mk.injEq, Prod.exists, hd, not_false_eq_true, true_and]
        constructor
        · rintro ⟨r, b', hm, rfl, rfl⟩
          exact ⟨r, rfl, .inr ((mem_frontier (node d ds) r b').mp hm)⟩
        · rintro ⟨r, rfl, ⟨rfl, rfl, hb⟩ | hf⟩
          · exact (hd hb).elim
          · exact ⟨r, b, (mem_frontier (node d ds) r b).mpr hf, rfl, rfl⟩
    rw [hhere]
    constructor
    · rintro (⟨r, rfl, h⟩ | ⟨j, c, r, hc, rfl, h⟩)
      · exact ⟨0, node d ds, r, rfl, rfl, h⟩
      · exact ⟨j + 1, c, r, hc, by rw [Nat.add_assoc, Nat.add_comm 1], h⟩
    · rintro ⟨j, c, r, hc, rfl, h⟩
      cases j with
      | zero => cases hc; exact .inl ⟨r, rfl, h⟩
      | succ j => exact .inr ⟨j, c, r, hc, by rw [Nat.add_assoc, Nat.add_comm 1], h⟩

end

mutual

/-- The frontier goes from left to right. -/
theorem frontier_sorted : ∀ t : Rose β,
    (frontier P t).Pairwise fun x y => x.1.reverse < y.1.reverse
  | node _ cs => by rw [frontier]; exact frontierFrom_sorted cs 0

theorem frontierFrom_sorted : ∀ (cs : List (Rose β)) (i : Nat),
    (frontierFrom P i cs).Pairwise fun x y => x.1.reverse < y.1.reverse
  | [], i => by simp [frontierFrom]
  | node d ds :: cs, i => by
    rw [frontierFrom, List.pairwise_append]
    refine ⟨?_, frontierFrom_sorted cs (i + 1), fun x hx y hy => ?_⟩
    · split
      · exact List.pairwise_singleton _ _
      · rw [List.pairwise_map]
        exact (frontier_sorted (node d ds)).imp fun h => by simpa using h
    · obtain ⟨r, hr⟩ : ∃ r, x.1 = r ++ [i] := by
        split at hx
        · rw [List.mem_singleton.mp hx]; exact ⟨[], rfl⟩
        · obtain ⟨z, -, rfl⟩ := List.mem_map.mp hx
          exact ⟨z.1, rfl⟩
      obtain ⟨j, -, r', -, hr', -⟩ := (mem_frontierFrom cs (i + 1) y.1 y.2).mp hy
      rw [hr, hr', List.reverse_append, List.reverse_append]
      exact List.cons_lt_cons_iff.mpr (.inl (by omega))

end

omit [DecidablePred P] in
/-- Where a node below the root satisfies `P` there is a first one. -/
theorem exists_first {t : Rose β} {q : List Nat} {b : β} (hq : q ≠ []) (hl : t.label? q = some b)
    (hb : P b) : ∃ r a, First P t r a := by
  suffices ∀ q : List Nat, (∃ r a, r ≠ [] ∧ r <:+ q ∧ t.label? r = some a ∧ P a) →
      ∃ r a, First P t r a from this q ⟨q, b, hq, List.suffix_refl q, hl, hb⟩
  intro q
  induction q with
  | nil =>
    rintro ⟨r, a, hr, hs, -⟩
    exact (hr (List.suffix_nil.mp hs)).elim
  | cons i p ih =>
    rintro ⟨r, a, hr, hs, hl, hb⟩
    by_cases habove : ∃ r a, r ≠ [] ∧ r <:+ p ∧ t.label? r = some a ∧ P a
    · exact ih habove
    · push Not at habove
      rcases List.suffix_cons_iff.mp hs with rfl | hs
      · refine ⟨i :: p, a, hr, hl, hb, fun r' a' hr' hs' hne ha' => ?_⟩
        exact habove r' a' hr' ((List.suffix_cons_iff.mp hs').resolve_left hne) ha'
      · exact (habove r a hr hs hl hb).elim

end Frontier

end Rose
