import Whosecoin.Blocks
import Whosecoin.Library.MerkleTrees

namespace Whosecoin.MerkleRoots

open Library.Outcomes
open Library.ByteStrings
open Library.MerkleTrees
open Cryptography
open Blocks

variable (S : Sodium)

def combine (a b : Hash) : Hash :=
  S.generichash (a.toList ++ b.toList)

theorem take_set_succ {α : Type} (list : List α) (i : Nat) (a : α) (hi : i < list.length) :
    (list.set i a).take (i + 1) = list.take i ++ [a] := by
  rw [List.take_add_one, List.take_set_of_le le_rfl, List.getElem?_set_self hi]
  rfl

/-- The node that one iteration of the loop writes. -/
def merkleNode (hashes : List Hash) (n j : Nat) : Hash :=
  if j + 1 = n then hashes.getD j (Bytes.zero generichashBytes)
  else combine S (hashes.getD j (Bytes.zero generichashBytes))
    (hashes.getD (j + 1) (Bytes.zero generichashBytes))

theorem merkleLevel_succ {fuel : Nat} {hashes : List Hash} {n i j : Nat} (hj : j < n) :
    merkleLevel S (fuel + 1) hashes n i j =
      merkleLevel S fuel (hashes.set i (merkleNode S hashes n j)) n (i + 1) (j + 2) := by
  rw [merkleLevel, if_pos hj]
  rfl

theorem drop_take_eq_nil {hashes : List Hash} {n j : Nat} (hj : n ≤ j) :
    (hashes.take n).drop j = [] := by
  rw [List.drop_eq_nil_iff]
  exact (List.length_take_le n hashes).trans hj

theorem drop_take_eq_cons {hashes : List Hash} {n j : Nat} (hj : j < n)
    (hn : n ≤ hashes.length) :
    (hashes.take n).drop j =
      hashes.getD j (Bytes.zero generichashBytes) :: (hashes.take n).drop (j + 1) := by
  have hlt : j < (hashes.take n).length := by
    rw [List.length_take_of_le hn]
    exact hj
  rw [List.drop_eq_getElem_cons hlt, List.getElem_take, List.getD_eq_getElem hashes _ (by omega)]

theorem level_drop_take {hashes : List Hash} {n j : Nat} (hj : j < n) (hn : n ≤ hashes.length) :
    level (combine S) ((hashes.take n).drop j) =
      merkleNode S hashes n j :: level (combine S) ((hashes.take n).drop (j + 2)) := by
  rw [merkleNode, drop_take_eq_cons hj hn]
  split_ifs with hlast
  · rw [drop_take_eq_nil (by omega), drop_take_eq_nil (by omega)]
    simp [level]
  · rw [drop_take_eq_cons (by omega) hn, level]

theorem merkleLevel_spec (fuel : Nat) (hashes : List Hash) (n i j : Nat) (hij : i ≤ j)
    (hn : n ≤ hashes.length) (hfuel : n ≤ j + fuel) :
    let result := merkleLevel S fuel hashes n i j
    let nodes := level (combine S) ((hashes.take n).drop j)
    result.1.length = hashes.length ∧ result.2 = i + nodes.length ∧
      result.1.take result.2 = hashes.take i ++ nodes := by
  induction fuel generalizing hashes i j with
  | zero =>
      rw [Nat.add_zero] at hfuel
      rw [drop_take_eq_nil hfuel]
      simp [merkleLevel, level]
  | succ fuel ih =>
      rcases Nat.lt_or_ge j n with hj | hj
      · obtain ⟨hlength, hcount, htake⟩ := ih (hashes.set i (merkleNode S hashes n j)) (i + 1)
          (j + 2) (by omega) (by rwa [List.length_set]) (by omega)
        have hdrop : ((hashes.set i (merkleNode S hashes n j)).take n).drop (j + 2) =
            (hashes.take n).drop (j + 2) := by
          rw [List.take_set, List.drop_set_of_lt (by omega)]
        rw [hdrop] at hcount htake
        rw [take_set_succ _ _ _ (by omega)] at htake
        rw [merkleLevel_succ S hj]
        intro result nodes
        have hnodes : nodes = merkleNode S hashes n j ::
            level (combine S) ((hashes.take n).drop (j + 2)) := level_drop_take S hj hn
        refine ⟨by rw [hlength, List.length_set], ?_, ?_⟩
        · rw [hcount, hnodes, List.length_cons]
          omega
        · rw [htake, hnodes, List.append_assoc, List.singleton_append]
      · rw [merkleLevel, if_neg (by omega)]
        simp [drop_take_eq_nil hj, level]

theorem computeMerkleRoot_spec (height : Nat) (hashes : List Hash) (n : Nat)
    (hn : n ≤ hashes.length) (hpos : 0 < n) :
    (computeMerkleRoot S height hashes n)[0]? =
      (reduce (combine S) height (hashes.take n))[0]? := by
  induction height generalizing hashes n with
  | zero => rw [computeMerkleRoot, reduce, List.getElem?_take_of_lt hpos]
  | succ height ih =>
      rw [computeMerkleRoot, reduce, List.length_take_of_le hn]
      split_ifs with hone
      · rw [List.getElem?_take_of_lt hpos]
      · obtain ⟨hlength, hcount, htake⟩ :=
          merkleLevel_spec S n hashes n 0 0 le_rfl hn (by omega)
        rw [List.drop_zero] at hcount htake
        have hlevel := level_length (combine S) (hashes.take n)
        rw [List.length_take_of_le hn] at hlevel
        rw [ih _ _ (by omega) (by omega), htake, List.take_zero, List.nil_append]

theorem merkleRootOfHashes_eq (hashes : List Hash) :
    merkleRootOfHashes S hashes =
      (reduce (combine S) hashes.length hashes).getD 0 (Bytes.zero generichashBytes) := by
  rw [merkleRootOfHashes]
  split_ifs with hpos
  · have h := computeMerkleRoot_spec S hashes.length hashes hashes.length le_rfl hpos
    rw [List.take_length] at h
    rw [List.getD_eq_getElem?_getD, h, List.getD_eq_getElem?_getD]
  · have hnil : hashes = [] := List.eq_nil_of_length_eq_zero (by omega)
    subst hnil
    rfl

/-- The strings that a Merkle tree hashes above its leaves. -/
def merkleStrings (hashes : List Hash) : List (List UInt8) :=
  (combinedPairs (combine S) hashes.length hashes).map fun p => p.1.toList ++ p.2.toList

theorem combine_injOn {nodes : Set (Hash × Hash)}
    (hfree : S.CollisionFree ((fun p : Hash × Hash => p.1.toList ++ p.2.toList) '' nodes)) :
    Set.InjOn (Function.uncurry (combine S)) nodes := by
  rintro ⟨a, b⟩ hab ⟨c, d⟩ hcd heq
  have happend := hfree (Set.mem_image_of_mem _ hab) (Set.mem_image_of_mem _ hcd) heq
  obtain ⟨hac, hbd⟩ := List.append_inj happend (a.length_eq.trans c.length_eq.symm)
  exact Prod.ext (Bytes.ext hac) (Bytes.ext hbd)

/-- Without hash collisions the Merkle root binds a list of a given length. -/
theorem merkleRootOfHashes_injOn {as bs : List Hash} (hlength : as.length = bs.length)
    (hfree :
      S.CollisionFree {string | string ∈ merkleStrings S as ∨ string ∈ merkleStrings S bs})
    (h : merkleRootOfHashes S as = merkleRootOfHashes S bs) : as = bs := by
  rcases Nat.eq_zero_or_pos as.length with hzero | hpos
  · rw [List.eq_nil_of_length_eq_zero hzero,
      List.eq_nil_of_length_eq_zero (hlength.symm.trans hzero)]
  rw [merkleRootOfHashes_eq, merkleRootOfHashes_eq, ← hlength] at h
  have hone : ∀ cs : List Hash, as.length = cs.length →
      (reduce (combine S) as.length cs).length = 1 := fun cs hcs =>
    reduce_length (combine S) as.length cs (by omega) (by omega)
  obtain ⟨a, ha⟩ := List.length_eq_one_iff.mp (hone as rfl)
  obtain ⟨b, hb⟩ := List.length_eq_one_iff.mp (hone bs hlength)
  rw [ha, hb] at h
  have hroot : reduce (combine S) as.length as = reduce (combine S) as.length bs := by
    rw [ha, hb]
    exact congrArg (fun c => [c]) h
  refine reduce_injOn hlength (combine_injOn S (hfree.mono ?_)) hroot
  rintro _ ⟨p, hp | hp, rfl⟩
  · exact .inl (List.mem_map_of_mem hp)
  · exact .inr (List.mem_map.mpr ⟨p, hlength ▸ hp, rfl⟩)

section Leaves

/-- The strings that are hashed for a Merkle tree over strings. -/
def treeStrings (leaves : List (List UInt8)) : List (List UInt8) :=
  leaves ++ merkleStrings S (leaves.map S.generichash)

theorem exists_root {leaves : List (List UInt8)} (hne : leaves ≠ []) :
    reduce (combine S) (leaves.map S.generichash).length (leaves.map S.generichash) =
      [merkleRootOfHashes S (leaves.map S.generichash)] := by
  have hpos : 0 < (leaves.map S.generichash).length := by
    rw [List.length_map]
    exact List.length_pos_iff.mpr hne
  obtain ⟨root, hroot⟩ := List.length_eq_one_iff.mp
    (reduce_length (combine S) (leaves.map S.generichash).length _ hpos (Nat.le_succ _))
  rw [merkleRootOfHashes_eq, hroot]
  rfl

theorem pair_mem_treeStrings {leaves : List (List UInt8)} {p : Hash × Hash}
    (hp : p ∈ combinedPairs (combine S) (leaves.map S.generichash).length
      (leaves.map S.generichash)) : p.1.toList ++ p.2.toList ∈ treeStrings S leaves :=
  List.mem_append_right _ (List.mem_map.mpr ⟨p, hp, rfl⟩)

variable {S}

theorem root_ne_zero {leaves : List (List UInt8)} (hne : leaves ≠ [])
    (hzero : ∀ string ∈ treeStrings S leaves,
      S.generichash string ≠ Bytes.zero generichashBytes) :
    merkleRootOfHashes S (leaves.map S.generichash) ≠ Bytes.zero generichashBytes := by
  rcases root_mem (exists_root S hne) with hleaf | ⟨p, hp, hroot⟩
  · obtain ⟨string, hstring, hhash⟩ := List.mem_map.mp hleaf
    rw [← hhash]
    exact hzero string (List.mem_append_left _ hstring)
  · rw [hroot]
    exact hzero _ (pair_mem_treeStrings S hp)

theorem leaf_ne_combine {strings : Set (List UInt8)} (hfree : S.CollisionFree strings)
    {leaves leaves' : List (List UInt8)} (hleaves : ∀ x ∈ leaves, x ∈ strings)
    (hlong : ∀ x ∈ leaves, x.length ≠ 2 * generichashBytes)
    (hstrings : ∀ x ∈ treeStrings S leaves', x ∈ strings) :
    ∀ a ∈ leaves.map S.generichash, ∀ p ∈ combinedPairs (combine S)
      (leaves'.map S.generichash).length (leaves'.map S.generichash), a ≠ combine S p.1 p.2 := by
  intro a ha p hp heq
  obtain ⟨x, hx, rfl⟩ := List.mem_map.mp ha
  have hsame := hfree (hleaves x hx) (hstrings _ (pair_mem_treeStrings S hp)) heq
  apply hlong x hx
  rw [hsame, List.length_append, Bytes.length_eq, Bytes.length_eq, two_mul]

theorem eq_of_map_eq {α β : Type} {f : α → β} {s : Set α} (hf : Set.InjOn f s)
    {xs ys : List α} (hxs : ∀ x ∈ xs, x ∈ s) (hys : ∀ y ∈ ys, y ∈ s)
    (h : xs.map f = ys.map f) : xs = ys := by
  induction xs generalizing ys with
  | nil => exact (List.map_eq_nil_iff.mp h.symm).symm
  | cons x xs ih =>
      cases ys with
      | nil => cases h
      | cons y ys =>
          rw [List.forall_mem_cons] at hxs hys
          obtain ⟨hhead, htail⟩ := List.cons.inj h
          rw [hf hxs.1 hys.1 hhead, ih hxs.2 hys.2 htail]

/-- Without collisions a Merkle root binds the strings below it, however many
they are. -/
theorem leaves_eq_of_merkleRoot {strings : Set (List UInt8)} (hfree : S.CollisionFree strings)
    (hzero : ∀ string ∈ strings, S.generichash string ≠ Bytes.zero generichashBytes)
    {xs ys : List (List UInt8)} (hxs : ∀ x ∈ treeStrings S xs, x ∈ strings)
    (hys : ∀ y ∈ treeStrings S ys, y ∈ strings)
    (hxlong : ∀ x ∈ xs, x.length ≠ 2 * generichashBytes)
    (hylong : ∀ y ∈ ys, y.length ≠ 2 * generichashBytes)
    (h : merkleRootOfHashes S (xs.map S.generichash) =
      merkleRootOfHashes S (ys.map S.generichash)) : xs = ys := by
  have hxleaf : ∀ x ∈ xs, x ∈ strings := fun x hx => hxs x (List.mem_append_left _ hx)
  have hyleaf : ∀ y ∈ ys, y ∈ strings := fun y hy => hys y (List.mem_append_left _ hy)
  rcases eq_or_ne xs [] with rfl | hxne
  · rcases eq_or_ne ys [] with rfl | hyne
    · rfl
    · exact absurd h.symm (root_ne_zero hyne fun y hy => hzero y (hys y hy))
  rcases eq_or_ne ys [] with rfl | hyne
  · exact absurd h (root_ne_zero hxne fun x hx => hzero x (hxs x hx))
  have hrootx := exists_root S hxne
  rw [h] at hrootx
  have hhashes : xs.map S.generichash = ys.map S.generichash := by
    refine eq_of_root hrootx (exists_root S hyne) (combine_injOn S (hfree.mono ?_))
      (leaf_ne_combine hfree hxleaf hxlong hys) (leaf_ne_combine hfree hyleaf hylong hxs)
    rintro _ ⟨p, hp | hp, rfl⟩
    · exact hxs _ (pair_mem_treeStrings S hp)
    · exact hys _ (pair_mem_treeStrings S hp)
  exact eq_of_map_eq hfree hxleaf hyleaf hhashes

end Leaves

end Whosecoin.MerkleRoots
