import Mathlib

/-!
The walk down a tree by the child of least priority, as an executable function and as a
relation, and what one more node changes about its end.
-/

namespace Whosecoin.Library.ForkChoice

variable {ι P : Type*} [LinearOrder P]

/-- Walk down a tree from a node, always to the first child of least priority,
for at most `fuel` steps. -/
def descend (priority : ι → P) (children : ι → List ι) : Nat → ι → ι
  | 0, x => x
  | fuel + 1, x =>
      match (children x).argmin priority with
      | none => x
      | some c => descend priority children fuel c

/-- The walk down from `root` passes through the node after `n` steps. -/
inductive BestPath (priority : ι → P) (children : ι → List ι) (root : ι) :
    Nat → ι → Prop where
  | refl : BestPath priority children root 0 root
  | step {n : Nat} {p c : ι} (path : BestPath priority children root n p)
      (best : (children p).argmin priority = some c) :
      BestPath priority children root (n + 1) c

/-- The walk down from `root` ends at the node, after `n` steps. -/
structure IsLeaf (priority : ι → P) (children : ι → List ι) (root : ι) (n : Nat) (x : ι) :
    Prop where
  path : BestPath priority children root n x
  stop : children x = []

/-- Every child is one level below its parent. -/
def Ranked (rank : ι → Nat) (children : ι → List ι) : Prop :=
  ∀ p, ∀ c ∈ children p, rank c = rank p + 1

section Descent

variable {priority : ι → P} {children : ι → List ι} {root x : ι} {n : Nat}

theorem descend_succ_of_argmin {fuel : Nat} {p c : ι}
    (h : (children p).argmin priority = some c) :
    descend priority children (fuel + 1) p = descend priority children fuel c := by
  simp [descend, h]

theorem BestPath.descend_eq (h : BestPath priority children root n x) (fuel : Nat) :
    descend priority children (n + fuel) root = descend priority children fuel x := by
  induction h generalizing fuel with
  | refl => simp
  | @step n p c path best ih =>
      rw [show n + 1 + fuel = n + (fuel + 1) by omega, ih, descend_succ_of_argmin best]

theorem descend_of_children_eq_nil (h : children x = []) (fuel : Nat) :
    descend priority children fuel x = x := by
  cases fuel with
  | zero => rfl
  | succ fuel => simp [descend, h]

/-- With enough fuel the executable walk finds the leaf. -/
theorem IsLeaf.descend_eq (h : IsLeaf priority children root n x) {fuel : Nat}
    (hfuel : n ≤ fuel) : descend priority children fuel root = x := by
  obtain ⟨extra, rfl⟩ := Nat.exists_eq_add_of_le hfuel
  rw [h.path.descend_eq, descend_of_children_eq_nil h.stop]

theorem IsLeaf.unique {m : Nat} {y : ι} (hx : IsLeaf priority children root n x)
    (hy : IsLeaf priority children root m y) : x = y := by
  rw [← hx.descend_eq (Nat.le_max_left n m), ← hy.descend_eq (Nat.le_max_right n m)]

theorem BestPath.unique (hx : BestPath priority children root n x) {y : ι}
    (hy : BestPath priority children root n y) : x = y := by
  induction hx generalizing y with
  | refl => cases hy with | refl => rfl
  | @step n p c path best ih =>
      cases hy with
      | @step _ q _ path' best' =>
          rw [← ih path', best, Option.some.injEq] at best'
          exact best'

theorem BestPath.truncate (h : BestPath priority children root n x) {k : Nat} (hk : k ≤ n) :
    ∃ y, BestPath priority children root k y := by
  induction h with
  | refl => exact ⟨root, Nat.le_zero.mp hk ▸ .refl⟩
  | @step n p c path best ih =>
      rcases Nat.le_succ_iff.mp hk with hle | rfl
      · exact ih hle
      · exact ⟨c, .step path best⟩

theorem IsLeaf.le_of_bestPath (hleaf : IsLeaf priority children root n x) {m : Nat} {y : ι}
    (hy : BestPath priority children root m y) : m ≤ n := by
  by_contra hlt
  obtain ⟨z, hz⟩ := hy.truncate (show n + 1 ≤ m by omega)
  cases hz with
  | @step _ p _ path best =>
      rw [path.unique hleaf.path, hleaf.stop] at best
      simp at best

theorem BestPath.rank_eq {rank : ι → Nat} (hrank : Ranked rank children)
    (h : BestPath priority children root n x) : rank x = rank root + n := by
  induction h with
  | refl => rfl
  | step path best ih =>
      rw [hrank _ _ (List.argmin_mem best), ih]
      omega

end Descent

/-- A tree in which the nodes of a walk have the same best children allows the walk. -/
theorem BestPath.mono {priority : ι → P} {children children' : ι → List ι}
    {root x : ι} {n : Nat}
    (h : BestPath priority children root n x)
    (hbest : ∀ m p c, BestPath priority children root m p →
      (children p).argmin priority = some c → (children' p).argmin priority = some c) :
    BestPath priority children' root n x := by
  induction h with
  | refl => exact .refl
  | step path best ih => exact .step ih (hbest _ _ _ path best)

theorem BestPath.congr {priority : ι → P} {children children' : ι → List ι} {root x : ι}
    {n : Nat} {rank : ι → Nat} (hrank : Ranked rank children)
    (h : BestPath priority children root n x)
    (hsame : ∀ p, rank p < rank x →
      (children' p).argmin priority = (children p).argmin priority) :
    BestPath priority children' root n x := by
  induction h with
  | refl => exact .refl
  | @step n p c path best ih =>
      have hlevel : rank c = rank p + 1 := hrank _ _ (List.argmin_mem best)
      refine .step (ih fun q hq => hsame q (by omega)) ?_
      rw [hsame p (by omega), best]

section Insertion

variable {priority : ι → P} {children children' : ι → List ι} {root x p b : ι} {n : Nat}
  {rank : ι → Nat}

/-- One node is appended to the children of one parent. -/
structure Inserts (children children' : ι → List ι) (p b : ι) : Prop where
  at_parent : children' p = children p ++ [b]
  elsewhere : ∀ q, q ≠ p → children' q = children q

theorem IsLeaf.extend (hrank : Ranked rank children) (hinsert : Inserts children children' x b)
    (hleaf : IsLeaf priority children root n x) (hb : children' b = []) :
    IsLeaf priority children' root (n + 1) b := by
  refine ⟨.step (hleaf.path.congr hrank fun q hq => ?_) ?_, hb⟩
  · rw [hinsert.elsewhere q (by rintro rfl; omega)]
  · simp [hinsert.at_parent, hleaf.stop]

/-- A node that beats the best child of its parent on the walk becomes the
leaf. -/
theorem IsLeaf.replace {c : ι} (hrank : Ranked rank children)
    (hinsert : Inserts children children' p b) (hp : BestPath priority children root n p)
    (hbest : (children p).argmin priority = some c) (hlt : priority b < priority c)
    (hb : children' b = []) : IsLeaf priority children' root (n + 1) b := by
  refine ⟨.step (hp.congr hrank fun q hq => ?_) ?_, hb⟩
  · rw [hinsert.elsewhere q (by rintro rfl; omega)]
  · rw [hinsert.at_parent, List.argmin_concat, hbest]
    simp [hlt]

theorem IsLeaf.keep {c : ι} (hrank : Ranked rank children)
    (hinsert : Inserts children children' p b) (hbest : (children p).argmin priority = some c)
    (hle : ¬ priority b < priority c) (hleaf : IsLeaf priority children root n x) :
    IsLeaf priority children' root n x := by
  have hpx : x ≠ p := by
    rintro rfl
    simp [hleaf.stop] at hbest
  refine ⟨hleaf.path.congr hrank fun q _ => ?_, ?_⟩
  · by_cases hq : q = p
    · subst hq
      rw [hinsert.at_parent, List.argmin_concat, hbest]
      simp [hle]
    · rw [hinsert.elsewhere q hq]
  · rw [hinsert.elsewhere x hpx, hleaf.stop]

theorem IsLeaf.keep_of_not_mem (hinsert : Inserts children children' p b)
    (hoff : ∀ m, ¬ BestPath priority children root m p)
    (hleaf : IsLeaf priority children root n x) : IsLeaf priority children' root n x := by
  have hsame : ∀ m q, BestPath priority children root m q → children' q = children q := by
    intro m q path
    apply hinsert.elsewhere
    rintro rfl
    exact hoff m path
  refine ⟨hleaf.path.mono fun m q c path best => ?_, ?_⟩
  · rw [hsame m q path, best]
  · rw [hsame n x hleaf.path, hleaf.stop]

end Insertion

section FirstMinimum

/-- The node has the lesser priority, or the same priority and the earlier time. -/
def Precedes (priority : ι → P) (time : ι → Nat) (x y : ι) : Prop :=
  priority x < priority y ∨ priority x = priority y ∧ time x < time y

variable {priority : ι → P} {time : ι → Nat} {nodes : List ι} {c : ι}

theorem not_precedes_iff {x y : ι} : ¬ Precedes priority time x y ↔
    priority y < priority x ∨ priority y = priority x ∧ time y ≤ time x := by
  rw [Precedes, not_or, not_and, not_lt, not_lt]
  constructor
  · rintro ⟨hle, htime⟩
    rcases hle.lt_or_eq with hlt | heq
    · exact Or.inl hlt
    · exact Or.inr ⟨heq, htime heq.symm⟩
  · rintro (hlt | ⟨heq, htime⟩)
    · exact ⟨hlt.le, fun h => absurd h.symm hlt.ne⟩
    · exact ⟨heq.le, fun _ => htime⟩

/-- Among nodes in the order of their times the first of least priority is chosen. -/
theorem not_precedes_of_argmin (htimes : nodes.Pairwise fun x y => time x < time y)
    (h : nodes.argmin priority = some c) : ∀ d ∈ nodes, ¬ Precedes priority time d c := by
  induction nodes using List.reverseRecOn generalizing c with
  | nil => cases h
  | append_singleton nodes e ih =>
      rw [List.pairwise_append] at htimes
      obtain ⟨hearlier, -, hlast⟩ := htimes
      have hlater : ∀ d ∈ nodes, time d < time e :=
        fun d hd => hlast d hd e (List.mem_singleton_self e)
      rw [List.argmin_concat] at h
      rcases hbest : nodes.argmin priority with _ | best
      · rw [List.argmin_eq_none.mp hbest] at h ⊢
        cases h
        intro d hd
        rw [List.nil_append, List.mem_singleton] at hd
        rw [hd, not_precedes_iff]
        exact Or.inr ⟨rfl, le_rfl⟩
      · have hfirst := ih hearlier hbest
        simp only [hbest] at h
        intro d hd
        rcases List.mem_append.mp hd with hold | hnew
        · split_ifs at h with hlt
          · cases h
            rw [not_precedes_iff]
            exact Or.inl (hlt.trans_le (List.le_of_mem_argmin hold hbest))
          · cases h
            exact hfirst d hold
        · rw [List.mem_singleton.mp hnew, not_precedes_iff]
          split_ifs at h with hlt
          · cases h
            exact Or.inr ⟨rfl, le_rfl⟩
          · cases h
            rcases (not_lt.mp hlt).lt_or_eq with hless | hsame
            · exact Or.inl hless
            · exact Or.inr ⟨hsame, (hlater _ (List.argmin_mem hbest)).le⟩

theorem argmin_eq_some_iff_of_times (htimes : nodes.Pairwise fun x y => time x < time y) :
    nodes.argmin priority = some c ↔ c ∈ nodes ∧
      ∀ d ∈ nodes, ¬ Precedes priority time d c := by
  constructor
  · intro h
    exact ⟨List.argmin_mem h, not_precedes_of_argmin htimes h⟩
  · rintro ⟨hmem, hfirst⟩
    rcases hbest : nodes.argmin priority with _ | best
    · rw [List.argmin_eq_none.mp hbest] at hmem
      cases hmem
    · have hbefore := not_precedes_iff.mp (not_precedes_of_argmin htimes hbest c hmem)
      have hafter := not_precedes_iff.mp (hfirst best (List.argmin_mem hbest))
      have htime : time best = time c := by
        rcases hbefore with hlt | ⟨heq, hle⟩ <;> rcases hafter with hlt' | ⟨heq', hle'⟩
        · exact absurd hlt' hlt.not_gt
        · exact absurd heq' hlt.ne'
        · exact absurd heq hlt'.ne'
        · exact le_antisymm hle hle'
      have hdistinct : (nodes.map time).Nodup := List.pairwise_map.mpr (htimes.imp ne_of_lt)
      rw [List.inj_on_of_nodup_map hdistinct (List.argmin_mem hbest) hmem htime]

end FirstMinimum

section Agreement

variable {priority : ι → P} {children children' : ι → List ι} {root x : ι} {n : Nat}

/-- The least priority among the listed nodes is attained by one of them only. -/
def UniqueMinimum (priority : ι → P) (nodes : List ι) : Prop :=
  ∀ c ∈ nodes, ∀ d ∈ nodes, (∀ e ∈ nodes, priority c ≤ priority e) →
    priority c = priority d → c = d

theorem argmin_eq_of_uniqueMinimum {nodes nodes' : List ι} {c : ι}
    (hunique : UniqueMinimum priority nodes) (hmem : ∀ d, d ∈ nodes' ↔ d ∈ nodes)
    (h : nodes.argmin priority = some c) : nodes'.argmin priority = some c := by
  classical
  have hle : ∀ e ∈ nodes, priority c ≤ priority e := fun e he =>
    List.le_of_mem_argmin he h
  rw [List.argmin_eq_some_iff]
  refine ⟨(hmem c).mpr (List.argmin_mem h), fun d hd => hle d ((hmem d).mp hd), ?_⟩
  intro d hd hdc
  have hdmem := (hmem d).mp hd
  have : c = d := hunique c (List.argmin_mem h) d hdmem hle (le_antisymm (hle d hdmem) hdc)
  rw [this]

/-- Two trees with the same children under every node, in any order, have the
same leaf when minima are unique. -/
theorem IsLeaf.of_mem_iff (hunique : ∀ p, UniqueMinimum priority (children p))
    (hmem : ∀ p d, d ∈ children' p ↔ d ∈ children p)
    (hleaf : IsLeaf priority children root n x) : IsLeaf priority children' root n x := by
  refine ⟨hleaf.path.mono fun _ q _ _ best => ?_,
    List.eq_nil_iff_forall_not_mem.mpr fun d hd => ?_⟩
  · exact argmin_eq_of_uniqueMinimum (hunique q) (hmem q) best
  · have := (hmem x d).mp hd
    simp [hleaf.stop] at this

end Agreement

end Whosecoin.Library.ForkChoice
