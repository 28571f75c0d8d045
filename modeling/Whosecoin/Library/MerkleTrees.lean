import Mathlib

/-!
Merkle trees in which the last node of an odd level moves up unchanged.
-/

namespace Whosecoin.Library.MerkleTrees

variable {δ : Type*} (combine : δ → δ → δ)

/-- Combine neighbours; a last node without a neighbour moves up unchanged. -/
def level : List δ → List δ
  | a :: b :: rest => combine a b :: level rest
  | nodes => nodes

/-- The levels of a tree from its leaves up, at most `height` of them. -/
def reduce : (height : Nat) → List δ → List δ
  | 0, nodes => nodes
  | height + 1, nodes =>
      if nodes.length ≤ 1 then nodes else reduce height (level combine nodes)

theorem level_length (nodes : List δ) :
    (level combine nodes).length = (nodes.length + 1) / 2 := by
  induction nodes using level.induct with
  | case1 a b rest ih =>
      rw [level, List.length_cons, ih, List.length_cons, List.length_cons]
      omega
  | case2 nodes hshort =>
      rcases nodes with _ | ⟨a, _ | ⟨b, rest⟩⟩
      · simp [level]
      · simp [level]
      · exact absurd rfl (hshort a b rest)

/-- One level after the other, until one node remains. -/
def root (nodes : List δ) : Option δ :=
  if nodes.length ≤ 1 then nodes[0]? else root (level combine nodes)
termination_by nodes.length
decreasing_by
  rw [level_length]
  omega

/-- The neighbours that one level combines. -/
def pairs : List δ → List (δ × δ)
  | a :: b :: rest => (a, b) :: pairs rest
  | _ => []

/-- All pairs that a tree combines. -/
def combinedPairs : (height : Nat) → List δ → List (δ × δ)
  | 0, _ => []
  | height + 1, nodes =>
      if nodes.length ≤ 1 then []
      else pairs nodes ++ combinedPairs height (level combine nodes)

theorem reduce_root (height : Nat) (nodes : List δ) (hheight : nodes.length ≤ height + 1) :
    (reduce combine height nodes)[0]? = root combine nodes := by
  induction height generalizing nodes with
  | zero => rw [reduce, root, if_pos hheight]
  | succ height ih =>
      rw [reduce, root]
      split_ifs with hone
      · rfl
      · apply ih
        rw [level_length]
        omega

theorem reduce_length (height : Nat) (nodes : List δ) (hpos : 0 < nodes.length)
    (hheight : nodes.length ≤ height + 1) : (reduce combine height nodes).length = 1 := by
  induction height generalizing nodes with
  | zero =>
      rw [reduce]
      omega
  | succ height ih =>
      rw [reduce]
      split_ifs with hone
      · omega
      · have hlevel := level_length combine nodes
        exact ih (level combine nodes) (by omega) (by omega)

section Binding

variable {combine}

/-- Without collisions among the combined pairs a level determines the one
below it. -/
theorem level_injOn {as bs : List δ} (hlength : as.length = bs.length)
    (hinj : Set.InjOn (Function.uncurry combine) {p | p ∈ pairs as ∨ p ∈ pairs bs})
    (h : level combine as = level combine bs) : as = bs := by
  induction as using level.induct generalizing bs with
  | case1 a b rest ih =>
      rcases bs with _ | ⟨c, _ | ⟨d, rest'⟩⟩
      · simp at hlength
      · simp at hlength
      simp only [level, List.cons.injEq] at h
      have hpair : (a, b) = (c, d) :=
        hinj (.inl List.mem_cons_self) (.inr List.mem_cons_self) h.1
      have hrest : rest = rest' := by
        refine ih (by simpa using hlength) (hinj.mono ?_) h.2
        rintro p (hp | hp)
        · exact .inl (List.mem_cons_of_mem _ hp)
        · exact .inr (List.mem_cons_of_mem _ hp)
      rw [Prod.mk.injEq] at hpair
      rw [hpair.1, hpair.2, hrest]
  | case2 as hshort =>
      rcases as with _ | ⟨a, _ | ⟨b, rest⟩⟩
      · exact (List.length_eq_zero_iff.mp hlength.symm).symm
      · obtain ⟨c, rfl⟩ := List.length_eq_one_iff.mp hlength.symm
        exact h
      · exact absurd rfl (hshort a b rest)

theorem reduce_injOn {height : Nat} {as bs : List δ} (hlength : as.length = bs.length)
    (hinj : Set.InjOn (Function.uncurry combine)
      {p | p ∈ combinedPairs combine height as ∨ p ∈ combinedPairs combine height bs})
    (h : reduce combine height as = reduce combine height bs) : as = bs := by
  induction height generalizing as bs with
  | zero => exact h
  | succ height ih =>
      rw [reduce, reduce, hlength] at h
      split_ifs at h with hone
      · exact h
      simp only [combinedPairs, hlength, if_neg hone, List.mem_append] at hinj
      refine level_injOn hlength (hinj.mono ?_) (ih ?_ (hinj.mono ?_) h)
      · rintro p (hp | hp)
        · exact .inl (.inl hp)
        · exact .inr (.inl hp)
      · rw [level_length, level_length, hlength]
      · rintro p (hp | hp)
        · exact .inl (.inr hp)
        · exact .inr (.inr hp)

end Binding

/-- A tree over given leaves, kept with its shape. -/
inductive Node (δ : Type*) where
  | leaf (value : δ)
  | join (left right : Node δ)

section Shapes

namespace Node

/-- The node's value once the inner nodes are combined. -/
def value : Node δ → δ
  | leaf value => value
  | join left right => combine left.value right.value

/-- The values of the leaves, from left to right. -/
def leaves : Node δ → List δ
  | leaf value => [value]
  | join left right => left.leaves ++ right.leaves

/-- The pairs that are combined below the node, its own included. -/
def joins : Node δ → List (δ × δ)
  | leaf _ => []
  | join left right =>
      (left.value combine, right.value combine) :: (left.joins ++ right.joins)

end Node

theorem map_level (trees : List (Node δ)) :
    (level Node.join trees).map (Node.value combine) =
      level combine (trees.map (Node.value combine)) := by
  induction trees using level.induct with
  | case1 a b rest ih =>
      simp only [level, List.map_cons, ih, Node.value]
  | case2 trees hshort =>
      rcases trees with _ | ⟨a, _ | ⟨b, rest⟩⟩
      · rfl
      · rfl
      · exact absurd rfl (hshort a b rest)

theorem leaves_level (trees : List (Node δ)) :
    (level Node.join trees).flatMap Node.leaves = trees.flatMap Node.leaves := by
  induction trees using level.induct with
  | case1 a b rest ih =>
      simp only [level, List.flatMap_cons, ih, Node.leaves, List.append_assoc]
  | case2 trees hshort =>
      rcases trees with _ | ⟨a, _ | ⟨b, rest⟩⟩
      · rfl
      · rfl
      · exact absurd rfl (hshort a b rest)

theorem joins_level {trees : List (Node δ)} {p : δ × δ}
    (h : p ∈ (level Node.join trees).flatMap (Node.joins combine)) :
    p ∈ trees.flatMap (Node.joins combine) ∨ p ∈ pairs (trees.map (Node.value combine)) := by
  induction trees using level.induct with
  | case1 a b rest ih =>
      simp only [level, Node.joins, List.flatMap_cons, List.cons_append, List.mem_cons,
        List.mem_append] at h
      simp only [List.flatMap_cons, List.mem_append, List.map_cons, pairs, List.mem_cons]
      tauto
  | case2 trees hshort =>
      rcases trees with _ | ⟨a, _ | ⟨b, rest⟩⟩
      · exact .inl h
      · exact .inl h
      · exact absurd rfl (hshort a b rest)

theorem map_reduce (height : Nat) (trees : List (Node δ)) :
    (reduce Node.join height trees).map (Node.value combine) =
      reduce combine height (trees.map (Node.value combine)) := by
  induction height generalizing trees with
  | zero => rfl
  | succ height ih =>
      rw [reduce, reduce, List.length_map]
      split_ifs with hone
      · rfl
      · rw [ih, map_level]

theorem leaves_reduce (height : Nat) (trees : List (Node δ)) :
    (reduce Node.join height trees).flatMap Node.leaves = trees.flatMap Node.leaves := by
  induction height generalizing trees with
  | zero => rfl
  | succ height ih =>
      rw [reduce]
      split_ifs with hone
      · rfl
      · rw [ih, leaves_level]

theorem joins_reduce {height : Nat} {trees : List (Node δ)} {p : δ × δ}
    (h : p ∈ (reduce Node.join height trees).flatMap (Node.joins combine)) :
    p ∈ trees.flatMap (Node.joins combine) ∨
      p ∈ combinedPairs combine height (trees.map (Node.value combine)) := by
  induction height generalizing trees with
  | zero => exact .inl h
  | succ height ih =>
      rw [reduce] at h
      rw [combinedPairs, List.length_map]
      split_ifs at h with hone
      · exact .inl h
      · rw [if_neg hone, List.mem_append, ← map_level]
        rcases ih h with hold | hnew
        · rcases joins_level combine hold with hbelow | hpair
          · exact .inl hbelow
          · exact .inr (.inl hpair)
        · exact .inr (.inr hnew)

variable {combine}

/-- Two trees of one value are equal when the combined pairs do not collide and
no leaf has the value of an inner node. -/
theorem Node.eq_of_value {s t : Node δ}
    (hinj :
      Set.InjOn (Function.uncurry combine) {p | p ∈ s.joins combine ∨ p ∈ t.joins combine})
    (hleft : ∀ a ∈ s.leaves, ∀ p ∈ t.joins combine, a ≠ combine p.1 p.2)
    (hright : ∀ a ∈ t.leaves, ∀ p ∈ s.joins combine, a ≠ combine p.1 p.2)
    (h : s.value combine = t.value combine) : s = t := by
  induction s generalizing t with
  | leaf a =>
      cases t with
      | leaf b => exact congrArg Node.leaf h
      | join l r => exact absurd h (hleft a List.mem_cons_self _ List.mem_cons_self)
  | join l r ihl ihr =>
      cases t with
      | leaf b => exact absurd h.symm (hright b List.mem_cons_self _ List.mem_cons_self)
      | join l' r' =>
          have hpair :
              (l.value combine, r.value combine) = (l'.value combine, r'.value combine) :=
            hinj (.inl List.mem_cons_self) (.inr List.mem_cons_self) h
          rw [Prod.mk.injEq] at hpair
          simp only [Node.leaves, Node.joins, List.mem_append, List.mem_cons] at hleft hright hinj
          have hl : l = l' := by
            refine ihl (hinj.mono ?_) ?_ ?_ hpair.1
            · rintro p (hp | hp)
              · exact .inl (.inr (.inl hp))
              · exact .inr (.inr (.inl hp))
            · exact fun a ha p hp => hleft a (.inl ha) p (.inr (.inl hp))
            · exact fun a ha p hp => hright a (.inl ha) p (.inr (.inl hp))
          have hr : r = r' := by
            refine ihr (hinj.mono ?_) ?_ ?_ hpair.2
            · rintro p (hp | hp)
              · exact .inl (.inr (.inr hp))
              · exact .inr (.inr (.inr hp))
            · exact fun a ha p hp => hleft a (.inr ha) p (.inr (.inr hp))
            · exact fun a ha p hp => hright a (.inr ha) p (.inr (.inr hp))
          rw [hl, hr]

theorem exists_tree {height : Nat} {as : List δ} {root : δ}
    (h : reduce combine height as = [root]) :
    ∃ t : Node δ, t.value combine = root ∧ t.leaves = as ∧
      ∀ p ∈ t.joins combine, p ∈ combinedPairs combine height as := by
  have hvalues : (as.map Node.leaf).map (Node.value combine) = as := by
    rw [List.map_map]
    exact List.map_id as
  have hmap := map_reduce combine height (as.map Node.leaf)
  have hleaves := leaves_reduce height (as.map Node.leaf)
  rw [hvalues, h] at hmap
  obtain ⟨t, ht, hroot⟩ := List.map_eq_singleton_iff.mp hmap
  rw [ht, List.flatMap_singleton, List.flatMap_map] at hleaves
  refine ⟨t, hroot, hleaves.trans (List.flatMap_singleton' as), ?_⟩
  intro p hp
  have hjoins := @joins_reduce δ combine height (as.map Node.leaf) p
  rw [ht, List.flatMap_singleton, hvalues] at hjoins
  rcases hjoins hp with hnone | hpair
  · simp [List.flatMap_map, Node.joins] at hnone
  · exact hpair

/-- The root binds a list of leaves of any length when the combined pairs do not
collide with each other or with a leaf. -/
theorem eq_of_root {m n : Nat} {as bs : List δ} {root : δ}
    (has : reduce combine m as = [root]) (hbs : reduce combine n bs = [root])
    (hinj : Set.InjOn (Function.uncurry combine)
      {p | p ∈ combinedPairs combine m as ∨ p ∈ combinedPairs combine n bs})
    (hleft : ∀ a ∈ as, ∀ p ∈ combinedPairs combine n bs, a ≠ combine p.1 p.2)
    (hright : ∀ b ∈ bs, ∀ p ∈ combinedPairs combine m as, b ≠ combine p.1 p.2) :
    as = bs := by
  obtain ⟨s, hs, rfl, hjoins⟩ := exists_tree has
  obtain ⟨t, ht, rfl, hjoins'⟩ := exists_tree hbs
  have heq : s = t := by
    refine Node.eq_of_value (hinj.mono ?_) ?_ ?_ (hs.trans ht.symm)
    · rintro p (hp | hp)
      · exact .inl (hjoins p hp)
      · exact .inr (hjoins' p hp)
    · exact fun a ha p hp => hleft a ha p (hjoins' p hp)
    · exact fun b hb p hp => hright b hb p (hjoins p hp)
  rw [heq]

theorem root_mem {height : Nat} {as : List δ} {root : δ}
    (h : reduce combine height as = [root]) :
    root ∈ as ∨ ∃ p ∈ combinedPairs combine height as, root = combine p.1 p.2 := by
  obtain ⟨t, rfl, hleaves, hjoins⟩ := exists_tree h
  cases t with
  | leaf a =>
      rw [← hleaves]
      exact .inl List.mem_cons_self
  | join l r => exact .inr ⟨_, hjoins _ List.mem_cons_self, rfl⟩

end Shapes

end Whosecoin.Library.MerkleTrees
