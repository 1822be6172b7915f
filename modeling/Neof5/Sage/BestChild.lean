import Neof5.EvalNode

/-!
# The best node (`findBestParamChild`)

The evaluation `p2` of a node is zero as long as the search did not expand it. On each branch the
method looks for the first node with another value, and of these it takes the least, the leftmost
one if several are.

`Rose.frontier` is the list of the nodes that are compared. `findBestParamChild_eq` says that the
method is the minimum over that list: the loop compares the least of a child with the least of the
children before, and the least of a list comes out of the least of its parts
(`argmin_append_argmin`, `argmin_argmin_append`).
-/

namespace Neof5

section Argmin

variable {α β γ : Type} [LinearOrder α] (f : β → α)

/-- The elements that come first may be replaced by the least of them. -/
theorem argmin_argmin_append (l l' : List β) :
    ((l.argmin f).toList ++ l').argmin f = (l ++ l').argmin f := by
  simp only [List.argmin, List.foldl_append]
  cases l.foldl (List.argAux fun b c => f b < f c) none <;> rfl

/-- So may those that come last. -/
theorem argmin_append_argmin (l l' : List β) :
    (l ++ (l'.argmin f).toList).argmin f = (l ++ l').argmin f := by
  induction l' using List.reverseRecOn with
  | nil => simp
  | append_singleton l' a ih =>
    rw [← List.append_assoc, List.argmin_concat f a (l ++ l'), ← ih, List.argmin_concat f a l']
    cases l'.argmin f with
    | none => simp [List.argmin_concat]
    | some c =>
      cases hl : l.argmin f with
      | none => by_cases hac : f a < f c <;> simp [List.argmin_concat, hl, hac]
      | some b =>
        -- The last element against the least before, in either order of comparing the three.
        by_cases hac : f a < f c
        · simp only [hac, ↓reduceIte, Option.toList_some, List.argmin_concat, hl]
          by_cases hcb : f c < f b
          · simp [hcb, hac, hac.trans hcb]
          · simp [hcb]
        · simp only [hac, ↓reduceIte, Option.toList_some, List.argmin_concat, hl]
          by_cases hcb : f c < f b
          · simp [hcb, hac]
          · simp [hcb, not_lt.mpr ((not_lt.mp hcb).trans (not_lt.mp hac))]

theorem argmin_map (g : γ → β) (l : List γ) :
    (l.map g).argmin f = (l.argmin (f ∘ g)).map g := by
  induction l using List.reverseRecOn with
  | nil => rfl
  | append_singleton l a ih =>
    rw [List.map_append, List.map_singleton, List.argmin_concat, List.argmin_concat, ih]
    cases l.argmin (f ∘ g) with
    | none => rfl
    | some c => simp only [Option.map_some, Function.comp]; split <;> rfl

end Argmin

namespace EvalNode

variable {α : Type} [LinearOrder α] [Zero α]

/-- The nodes that are compared: on each branch below the root the first one with a value. -/
def evaluated (t : EvalNode α) : List (NodePtr × NodeData α) :=
  Rose.frontier (fun d => d.hand.p2 ≠ 0) t

mutual

/-- `findBestParamChild` is the minimum over the nodes that are compared. -/
theorem findBestParamChild_eq : ∀ t : EvalNode α,
    findBestParamChild t = (evaluated t).argmin fun x => x.2.hand.p2
  | .node _ cs => by
    rw [findBestParamChild, scanBest_eq cs 0 none, evaluated, Rose.frontier]
    rfl

/-- Its loop is the minimum over the node that it has and those in and below the children. -/
theorem scanBest_eq : ∀ (cs : List (EvalNode α)) (i : Nat) (best : Option (NodePtr × NodeData α)),
    scanBest i best cs = (best.toList ++
      Rose.frontierFrom (fun d => d.hand.p2 ≠ 0) i cs).argmin fun x => x.2.hand.p2
  | [], i, best => by cases best <;> rfl
  | .node d ds :: cs, i, best => by
    -- What the body compares is the least of the child.
    have hchild : (if d.hand.p2 == 0 then
          (findBestParamChild (.node d ds)).map fun x => (x.1 ++ [i], x.2)
        else some ([i], d)) = (if d.hand.p2 ≠ 0 then [([i], d)] else
          (evaluated (.node d ds)).map fun x => (x.1 ++ [i], x.2)).argmin
            fun x => x.2.hand.p2 := by
      by_cases h0 : d.hand.p2 = 0
      · simp only [h0, beq_self_eq_true, ↓reduceIte, ne_eq, not_true_eq_false,
          findBestParamChild_eq (.node d ds)]
        rw [argmin_map]
        rfl
      · simp [h0]
    rw [scanBest, hchild, Rose.frontierFrom, ← List.append_assoc, ← evaluated]
    generalize (if d.hand.p2 ≠ 0 then [([i], d)] else
      (evaluated (.node d ds)).map fun x => (x.1 ++ [i], x.2)) = here
    rw [← argmin_argmin_append, ← argmin_append_argmin _ best.toList here]
    generalize here.argmin (fun x => x.2.hand.p2) = least
    cases least with
    | none =>
      rw [Option.toList_none, List.append_nil, argmin_argmin_append]
      exact scanBest_eq cs (i + 1) best
    | some c =>
      cases best with
      | none => exact scanBest_eq cs (i + 1) (some c)
      | some b => exact scanBest_eq cs (i + 1) _

end

theorem mem_evaluated {t : EvalNode α} {q : NodePtr} {d : NodeData α} :
    (q, d) ∈ evaluated t ↔ Rose.First (fun d => d.hand.p2 ≠ 0) t q d :=
  Rose.mem_frontier t q d

/-- What comes first in the list of the nodes that are compared, comes first in child order. -/
theorem le_of_idxOf_le [DecidableEq (NodePtr × NodeData α)] {t : EvalNode α}
    {x y : NodePtr × NodeData α} (hx : x ∈ evaluated t) (hy : y ∈ evaluated t)
    (h : (evaluated t).idxOf x ≤ (evaluated t).idxOf y) : x.1.reverse ≤ y.1.reverse := by
  rcases Nat.eq_or_lt_of_le h with heq | hlt
  · rw [(List.idxOf_inj hx).mp heq]
  · have hsorted := List.pairwise_iff_getElem.mp (Rose.frontier_sorted t) _ _
      (List.idxOf_lt_length_of_mem hx) (List.idxOf_lt_length_of_mem hy) hlt
    rw [List.getElem_idxOf, List.getElem_idxOf] at hsorted
    exact le_of_lt hsorted

/-- **The best node.** The method returns null exactly if no node below has a value. Otherwise it
returns a node with a value, the first one on its branch; its value is the least of all nodes of
this kind, and it is the first of them with this value in child order. -/
theorem findBestParamChild_min (t : EvalNode α) :
    (findBestParamChild t = none ↔
      ∀ q d, q ≠ [] → t.label? q = some d → d.hand.p2 = 0) ∧
    ∀ q d, findBestParamChild t = some (q, d) →
      Rose.First (fun d => d.hand.p2 ≠ 0) t q d ∧
      ∀ q' d', Rose.First (fun d => d.hand.p2 ≠ 0) t q' d' →
        d.hand.p2 ≤ d'.hand.p2 ∧ (d'.hand.p2 = d.hand.p2 → q.reverse ≤ q'.reverse) := by
  classical
  rw [findBestParamChild_eq]
  constructor
  · rw [List.argmin_eq_none, List.eq_nil_iff_forall_not_mem]
    constructor
    · intro hnone q d hq hd
      by_contra hval
      obtain ⟨r, a, hf⟩ := Rose.exists_first (P := fun d : NodeData α => d.hand.p2 ≠ 0) hq hd hval
      exact hnone (r, a) (mem_evaluated.mpr hf)
    · rintro hzero ⟨q, d⟩ hmem
      have hf := mem_evaluated.mp hmem
      exact hf.holds (hzero q d hf.below hf.label)
  · intro q d hmin
    obtain ⟨hmem, hle, hfirst⟩ := List.argmin_eq_some_iff.mp hmin
    refine ⟨mem_evaluated.mp hmem, fun q' d' hf => ?_⟩
    have hmem' := mem_evaluated.mpr hf
    exact ⟨hle _ hmem', fun heq => le_of_idxOf_le hmem hmem' (hfirst _ hmem' (le_of_eq heq))⟩

end EvalNode

end Neof5
