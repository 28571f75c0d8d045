import Whosecoin.Library.Dictionaries

namespace Whosecoin.HashMaps

open Library.Dictionaries

/-- A `map_t` of `n` buckets, each a list of entries or `NULL`. Its values are pointers that are
not `NULL`, and it has no destructor for keys. -/
structure HashMap (κ ν : Type) (n : Nat) where
  buckets : Fin n → Option (List (Entry κ ν))
  size : Nat

section Functions

variable {κ ν : Type} {n : Nat} (hash : κ → Nat) (compare : κ → κ → Int)

/-- The keys of two entries for which `entry_compare` gives zero. -/
def Same (key key' : κ) : Prop :=
  compare key key' = 0

instance decidableSame : DecidableRel (Same compare) :=
  fun key key' => Int.instDecidableEq (compare key key') 0

def mapGetBucket (n : Nat) [NeZero n] (key : κ) : Fin n :=
  Fin.ofNat n (hash key)

/-- The counter, which `map_remove` leaves as it is. -/
def mapSize (map : HashMap κ ν n) : Nat :=
  map.size

/-- The buckets are created on demand. -/
def mapCreate (κ ν : Type) (n : Nat) : HashMap κ ν n where
  buckets := fun _ => none
  size := 0

/-- The entries of a bucket. -/
def bucketAt (map : HashMap κ ν n) (bi : Fin n) : List (Entry κ ν) :=
  (map.buckets bi).getD []

variable [NeZero n] (map : HashMap κ ν n) (key : κ)

/-- The entry of a key, with its index in the bucket. -/
def mapGetEntry : Option (Nat × Entry κ ν) :=
  match map.buckets (mapGetBucket hash n key) with
  | none => none
  | some bucket =>
      if h : find (Same compare) bucket key = bucket.length then none
      else
        have hlt := find_lt h
        some (find (Same compare) bucket key, bucket[find (Same compare) bucket key])

def mapGet : Option ν :=
  (mapGetEntry hash compare map key).map fun e => e.2.val

/-- The map with another bucket for the key. -/
def withBucket (bucket : List (Entry κ ν)) : HashMap κ ν n :=
  { map with buckets := Function.update map.buckets (mapGetBucket hash n key) (some bucket) }

/-- The value is replaced where the key has an entry, and appended otherwise. -/
def mapSet (val : ν) : Option ν × HashMap κ ν n :=
  match mapGetEntry hash compare map key with
  | some (ei, old) =>
      (some old.val,
        withBucket hash map key ((bucketAt map (mapGetBucket hash n key)).set ei ⟨key, val⟩))
  | none =>
      match map.buckets (mapGetBucket hash n key) with
      | none => (none, { withBucket hash map key [⟨key, val⟩] with size := map.size + 1 })
      | some bucket =>
          (none, { withBucket hash map key (bucket ++ [⟨key, val⟩]) with size := map.size + 1 })

/-- The size stays as it is. -/
def mapRemove : Option ν × HashMap κ ν n :=
  match map.buckets (mapGetBucket hash n key) with
  | none => (none, map)
  | some bucket =>
      if h : find (Same compare) bucket key = bucket.length then (none, map)
      else
        have hlt := find_lt h
        (some bucket[find (Same compare) bucket key].val,
          withBucket hash map key (bucket.eraseIdx (find (Same compare) bucket key)))

/-- `map_destroy`: what the destructor of the values does, bucket after bucket. -/
def mapDestroy {σ : Type} (destroyVal : σ → ν → σ) (state : σ) : σ :=
  (List.finRange n).foldl (fun state bi =>
    match map.buckets bi with
    | none => state
    | some bucket => bucket.foldl (fun state e => destroyVal state e.val) state) state

end Functions

section Buckets

variable {κ ν : Type} {n : Nat} {hash : κ → Nat} {compare : κ → κ → Int}

theorem bucketAt_none {map : HashMap κ ν n} {bi : Fin n} (h : map.buckets bi = none) :
    bucketAt map bi = [] := by
  rw [bucketAt, h]
  rfl

theorem bucketAt_some {map : HashMap κ ν n} {bi : Fin n} {bucket : List (Entry κ ν)}
    (h : map.buckets bi = some bucket) : bucketAt map bi = bucket := by
  rw [bucketAt, h]
  rfl

variable [NeZero n]

theorem bucketAt_withBucket (map : HashMap κ ν n) (key : κ) (bucket : List (Entry κ ν)) :
    bucketAt (withBucket hash map key bucket) =
      Function.update (bucketAt map) (mapGetBucket hash n key) bucket := by
  funext bi
  by_cases h : bi = mapGetBucket hash n key
  · subst h
    rw [Function.update_self]
    apply bucketAt_some
    exact Function.update_self _ _ _
  · rw [Function.update_of_ne h]
    exact congrArg (Option.getD · []) (Function.update_of_ne h _ _)

theorem mapGetEntry_eq_none (map : HashMap κ ν n) (key : κ)
    (h : get (Same compare) (bucketAt map (mapGetBucket hash n key)) key = none) :
    mapGetEntry hash compare map key = none := by
  rw [mapGetEntry]
  cases hbucket : map.buckets (mapGetBucket hash n key) with
  | none => rfl
  | some bucket =>
      rw [bucketAt_some hbucket] at h
      exact dif_pos (find_eq_length_iff.mpr h)

theorem mapGetEntry_eq_some (map : HashMap κ ν n) (key : κ) {val : ν}
    (h : get (Same compare) (bucketAt map (mapGetBucket hash n key)) key = some val) :
    ∃ bucket old, bucketAt map (mapGetBucket hash n key) = bucket ∧
      find (Same compare) bucket key ≠ bucket.length ∧ old.val = val ∧
      mapGetEntry hash compare map key = some (find (Same compare) bucket key, old) := by
  cases hbucket : map.buckets (mapGetBucket hash n key) with
  | none =>
      rw [bucketAt_none hbucket] at h
      cases h
  | some bucket =>
      rw [bucketAt_some hbucket] at h
      have hfound : find (Same compare) bucket key ≠ bucket.length := by
        intro hend
        rw [get_of_absent hend] at h
        cases h
      rw [get_of_present (find_lt hfound)] at h
      refine ⟨bucket, _, bucketAt_some hbucket, hfound, Option.some.inj h, ?_⟩
      rw [mapGetEntry, hbucket]
      exact dif_neg hfound

theorem mapGet_eq (map : HashMap κ ν n) (key : κ) :
    mapGet hash compare map key =
      get (Same compare) (bucketAt map (mapGetBucket hash n key)) key := by
  rw [mapGet]
  cases hget : get (Same compare) (bucketAt map (mapGetBucket hash n key)) key with
  | none =>
      rw [mapGetEntry_eq_none map key hget]
      rfl
  | some val =>
      obtain ⟨bucket, old, -, -, hval, hentry⟩ := mapGetEntry_eq_some map key hget
      rw [hentry]
      exact congrArg some hval

variable (hash compare) in
theorem mapSet_spec (map : HashMap κ ν n) (key : κ) (val : ν) :
    (mapSet hash compare map key val).1 = mapGet hash compare map key ∧
      bucketAt (mapSet hash compare map key val).2 =
        Function.update (bucketAt map) (mapGetBucket hash n key)
          (put (Same compare) (bucketAt map (mapGetBucket hash n key)) key val) ∧
      (mapSet hash compare map key val).2.size =
        if mapGet hash compare map key = none then map.size + 1 else map.size := by
  rw [mapGet_eq, mapSet]
  cases hget : get (Same compare) (bucketAt map (mapGetBucket hash n key)) key with
  | none =>
      rw [mapGetEntry_eq_none map key hget, put, if_pos (find_eq_length_iff.mpr hget), if_pos rfl]
      cases hbucket : map.buckets (mapGetBucket hash n key) with
      | none =>
          refine ⟨rfl, ?_, rfl⟩
          rw [bucketAt_none hbucket]
          exact bucketAt_withBucket map key _
      | some bucket =>
          refine ⟨rfl, ?_, rfl⟩
          rw [bucketAt_some hbucket]
          exact bucketAt_withBucket map key _
  | some old =>
      obtain ⟨bucket, entry, hbucket, hfound, hval, hentry⟩ := mapGetEntry_eq_some map key hget
      rw [hentry, hbucket, put, if_neg hfound, if_neg (Option.some_ne_none _), ← hbucket]
      exact ⟨congrArg some hval, bucketAt_withBucket map key _, rfl⟩

theorem mapRemove_null {map : HashMap κ ν n} {key : κ}
    (h : map.buckets (mapGetBucket hash n key) = none) :
    mapRemove hash compare map key = (none, map) := by
  rw [mapRemove, h]

theorem mapRemove_absent {map : HashMap κ ν n} {key : κ} {bucket : List (Entry κ ν)}
    (h : map.buckets (mapGetBucket hash n key) = some bucket)
    (hend : find (Same compare) bucket key = bucket.length) :
    mapRemove hash compare map key = (none, map) := by
  rw [mapRemove, h]
  exact dif_pos hend

theorem mapRemove_present {map : HashMap κ ν n} {key : κ} {bucket : List (Entry κ ν)}
    (h : map.buckets (mapGetBucket hash n key) = some bucket)
    (hfound : find (Same compare) bucket key ≠ bucket.length) :
    mapRemove hash compare map key =
      (get (Same compare) bucket key,
        withBucket hash map key (remove (Same compare) bucket key)) := by
  rw [mapRemove, h, get_of_present (find_lt hfound)]
  exact dif_neg hfound

variable (hash compare) in
theorem mapRemove_spec (map : HashMap κ ν n) (key : κ) :
    (mapRemove hash compare map key).1 = mapGet hash compare map key ∧
      bucketAt (mapRemove hash compare map key).2 =
        Function.update (bucketAt map) (mapGetBucket hash n key)
          (remove (Same compare) (bucketAt map (mapGetBucket hash n key)) key) ∧
      (mapRemove hash compare map key).2.size = map.size := by
  rw [mapGet_eq]
  cases hbucket : map.buckets (mapGetBucket hash n key) with
  | none =>
      rw [mapRemove_null hbucket, bucketAt_none hbucket, remove_nil, get_nil,
        ← bucketAt_none hbucket, Function.update_eq_self]
      exact ⟨rfl, rfl, rfl⟩
  | some bucket =>
      by_cases hend : find (Same compare) bucket key = bucket.length
      · rw [mapRemove_absent hbucket hend, bucketAt_some hbucket, remove_of_absent hend,
          get_of_absent hend, ← bucketAt_some hbucket, Function.update_eq_self]
        exact ⟨rfl, rfl, rfl⟩
      · rw [mapRemove_present hbucket hend, bucketAt_some hbucket]
        exact ⟨rfl, bucketAt_withBucket map key _, rfl⟩

end Buckets

section Refinement

variable {κ ν : Type} {n : Nat} [NeZero n] {hash : κ → Nat} {compare : κ → κ → Int}

/-- Every entry is in the bucket of its key, and no two have the same key. -/
structure WellFormed (hash : κ → Nat) (compare : κ → κ → Int) (map : HashMap κ ν n) :
    Prop where
  placed : ∀ bi, ∀ e ∈ bucketAt map bi, mapGetBucket hash n e.key = bi
  distinct : ∀ bi, Distinct (Same compare) (bucketAt map bi)

/-- Equivalent keys have the same hash. -/
def Respects (hash : κ → Nat) (compare : κ → κ → Int) : Prop :=
  ∀ key key', Same compare key key' → hash key = hash key'

theorem Respects.bucket_eq (h : Respects hash compare) {key key' : κ}
    (hkey : Same compare key key') : mapGetBucket hash n key = mapGetBucket hash n key' :=
  congrArg (Fin.ofNat n) (h key key' hkey)

theorem wellFormed_mapCreate : WellFormed hash compare (mapCreate κ ν n) where
  placed := fun _ _ he => absurd he List.not_mem_nil
  distinct := fun _ => List.Pairwise.nil

theorem WellFormed.update {map next : HashMap κ ν n} (h : WellFormed hash compare map) {b : Fin n}
    {bucket : List (Entry κ ν)} (hnext : bucketAt next = Function.update (bucketAt map) b bucket)
    (hplaced : ∀ e ∈ bucket, mapGetBucket hash n e.key = b)
    (hdistinct : Distinct (Same compare) bucket) : WellFormed hash compare next := by
  constructor
  · intro bi e he
    rw [hnext] at he
    by_cases hbi : bi = b
    · subst hbi
      rw [Function.update_self] at he
      exact hplaced e he
    · rw [Function.update_of_ne hbi] at he
      exact h.placed bi e he
  · intro bi
    rw [hnext]
    by_cases hbi : bi = b
    · subst hbi
      rw [Function.update_self]
      exact hdistinct
    · rw [Function.update_of_ne hbi]
      exact h.distinct bi

theorem WellFormed.mapSet (hsame : Equivalence (Same compare)) {map : HashMap κ ν n}
    (h : WellFormed hash compare map) (key : κ) (val : ν) :
    WellFormed hash compare (mapSet hash compare map key val).2 := by
  apply h.update (mapSet_spec hash compare map key val).2.1
  · intro e he
    rcases mem_put he with rfl | he
    · rfl
    · exact h.placed _ e he
  · exact (h.distinct _).put hsame key val

theorem WellFormed.mapRemove {map : HashMap κ ν n} (h : WellFormed hash compare map) (key : κ) :
    WellFormed hash compare (mapRemove hash compare map key).2 := by
  apply h.update (mapRemove_spec hash compare map key).2.1
  · intro e he
    exact h.placed _ e (mem_of_mem_remove he)
  · exact (h.distinct _).remove key

theorem mapGet_mapSet (hsame : Equivalence (Same compare)) (hhash : Respects hash compare)
    (map : HashMap κ ν n) (key other : κ) (val : ν) :
    mapGet hash compare (mapSet hash compare map key val).2 other =
      if Same compare key other then some val else mapGet hash compare map other := by
  obtain ⟨-, hbuckets, -⟩ := mapSet_spec hash compare map key val
  rw [mapGet_eq, mapGet_eq, hbuckets]
  by_cases hbi : mapGetBucket hash n other = mapGetBucket hash n key
  · rw [hbi, Function.update_self, get_put hsame]
  · rw [Function.update_of_ne hbi, if_neg fun hkey => hbi (hhash.bucket_eq hkey).symm]

theorem mapGet_mapRemove (hsame : Equivalence (Same compare)) (hhash : Respects hash compare)
    {map : HashMap κ ν n} (h : WellFormed hash compare map) (key other : κ) :
    mapGet hash compare (mapRemove hash compare map key).2 other =
      if Same compare key other then none else mapGet hash compare map other := by
  obtain ⟨-, hbuckets, -⟩ := mapRemove_spec hash compare map key
  rw [mapGet_eq, mapGet_eq, hbuckets]
  by_cases hbi : mapGetBucket hash n other = mapGetBucket hash n key
  · rw [hbi, Function.update_self, get_remove hsame (h.distinct _)]
  · rw [Function.update_of_ne hbi, if_neg fun hkey => hbi (hhash.bucket_eq hkey).symm]

inductive Operation (κ ν : Type) where
  | set (key : κ) (val : ν)
  | get (key : κ)
  | remove (key : κ)

def step (hash : κ → Nat) (compare : κ → κ → Int) (map : HashMap κ ν n) :
    Operation κ ν → Option ν × HashMap κ ν n
  | .set key val => mapSet hash compare map key val
  | .get key => (mapGet hash compare map key, map)
  | .remove key => mapRemove hash compare map key

/-- The map that a sequence of operations leaves. -/
def after (hash : κ → Nat) (compare : κ → κ → Int) (map : HashMap κ ν n) :
    List (Operation κ ν) → HashMap κ ν n
  | [] => map
  | operation :: operations => after hash compare (step hash compare map operation).2 operations

/-- The value that was last set for an equivalent key and not removed since, where the
operations are listed from the last one back. -/
def lastSet (compare : κ → κ → Int) (key : κ) : List (Operation κ ν) → Option ν
  | [] => none
  | .set key' val :: earlier =>
      if Same compare key' key then some val else lastSet compare key earlier
  | .get _ :: earlier => lastSet compare key earlier
  | .remove key' :: earlier => if Same compare key' key then none else lastSet compare key earlier

theorem WellFormed.step (hsame : Equivalence (Same compare)) {map : HashMap κ ν n}
    (h : WellFormed hash compare map) (operation : Operation κ ν) :
    WellFormed hash compare (step hash compare map operation).2 := by
  cases operation with
  | set key val => exact h.mapSet hsame key val
  | get key => exact h
  | remove key => exact h.mapRemove key

theorem WellFormed.after (hsame : Equivalence (Same compare)) {map : HashMap κ ν n}
    (h : WellFormed hash compare map) (operations : List (Operation κ ν)) :
    WellFormed hash compare (after hash compare map operations) := by
  induction operations generalizing map with
  | nil => exact h
  | cons operation operations ih => exact ih (h.step hsame operation)

theorem mapGet_step (hsame : Equivalence (Same compare)) (hhash : Respects hash compare)
    {map : HashMap κ ν n} (h : WellFormed hash compare map) {earlier : List (Operation κ ν)}
    (hmap : ∀ key, mapGet hash compare map key = lastSet compare key earlier)
    (operation : Operation κ ν) (key : κ) :
    mapGet hash compare (step hash compare map operation).2 key =
      lastSet compare key (operation :: earlier) := by
  cases operation with
  | set key' val => rw [step, mapGet_mapSet hsame hhash, lastSet, hmap]
  | get key' => exact hmap key
  | remove key' => rw [step, mapGet_mapRemove hsame hhash h, lastSet, hmap]

theorem mapGet_after (hsame : Equivalence (Same compare)) (hhash : Respects hash compare)
    {map : HashMap κ ν n} (h : WellFormed hash compare map) {earlier : List (Operation κ ν)}
    (hmap : ∀ key, mapGet hash compare map key = lastSet compare key earlier)
    (operations : List (Operation κ ν)) (key : κ) :
    mapGet hash compare (after hash compare map operations) key =
      lastSet compare key (operations.reverse ++ earlier) := by
  induction operations generalizing map earlier with
  | nil => exact hmap key
  | cons operation operations ih =>
      rw [List.reverse_cons, List.append_assoc]
      exact ih (h.step hsame operation) (mapGet_step hsame hhash h hmap operation)

theorem mapGet_mapCreate (key : κ) : mapGet hash compare (mapCreate κ ν n) key = none :=
  mapGet_eq _ key

theorem map_refines (hsame : Equivalence (Same compare)) (hhash : Respects hash compare)
    (operations : List (Operation κ ν)) :
    let map := after hash compare (mapCreate κ ν n) operations
    let content := fun key => lastSet compare key operations.reverse
    (∀ key, mapGet hash compare map key = content key) ∧
      (∀ key val, (mapSet hash compare map key val).1 = content key ∧
        ∀ other, ¬ Same compare key other →
          mapGet hash compare (mapSet hash compare map key val).2 other = content other) ∧
      ∀ key, (mapRemove hash compare map key).1 = content key ∧
        ∀ other, ¬ Same compare key other →
          mapGet hash compare (mapRemove hash compare map key).2 other = content other := by
  intro map content
  have hget : ∀ key, mapGet hash compare map key = content key := by
    intro key
    have hcreate : WellFormed hash compare (mapCreate κ ν n) := wellFormed_mapCreate
    have hempty : ∀ key, mapGet hash compare (mapCreate κ ν n) key = lastSet compare key [] :=
      mapGet_mapCreate
    have hrun := mapGet_after hsame hhash hcreate hempty operations key
    rw [List.append_nil] at hrun
    exact hrun
  have hwell : WellFormed hash compare map := wellFormed_mapCreate.after hsame operations
  refine ⟨hget, ?_, ?_⟩
  · intro key val
    refine ⟨(mapSet_spec hash compare map key val).1.trans (hget key), ?_⟩
    intro other hother
    rw [mapGet_mapSet hsame hhash, if_neg hother, hget]
  · intro key
    refine ⟨(mapRemove_spec hash compare map key).1.trans (hget key), ?_⟩
    intro other hother
    rw [mapGet_mapRemove hsame hhash hwell, if_neg hother, hget]

theorem same_sub {key key' : Nat} :
    Same (fun a b : Nat => (a : Int) - b) key key' ↔ key = key' := by
  rw [Same]
  omega

theorem equivalence_sub : Equivalence (Same fun a b : Nat => (a : Int) - b) where
  refl := fun _ => same_sub.mpr rfl
  symm := fun h => same_sub.mpr (same_sub.mp h).symm
  trans := fun h h' => same_sub.mpr ((same_sub.mp h).trans (same_sub.mp h'))

theorem respects_sub (hash : Nat → Nat) : Respects hash fun a b : Nat => (a : Int) - b :=
  fun _ _ h => congrArg hash (same_sub.mp h)

/-- All keys are in one bucket. -/
theorem map_refines_collisions :
    mapGet (fun key => key) (fun a b : Nat => (a : Int) - b)
      (after (fun key => key) (fun a b => (a : Int) - b) (mapCreate Nat Nat 1)
        [.set 4 40, .set 2 20, .set 4 41, .remove 2, .get 3]) 4 = some 41 :=
  ((map_refines equivalence_sub (respects_sub _) _).1 4).trans (by decide)

end Refinement

section Sizes

variable {κ ν : Type} {n : Nat}

/-- The sum of the lengths of the buckets. -/
def bucketTotal (map : HashMap κ ν n) : Nat :=
  ∑ bi, (bucketAt map bi).length

def entriesOf (map : HashMap κ ν n) : List (Entry κ ν) :=
  (List.finRange n).flatMap (bucketAt map)

theorem length_entriesOf (map : HashMap κ ν n) : (entriesOf map).length = bucketTotal map := by
  rw [entriesOf, List.length_flatMap, bucketTotal, Fin.sum_univ_def]

theorem mem_entriesOf {map : HashMap κ ν n} {e : Entry κ ν} :
    e ∈ entriesOf map ↔ ∃ bi, e ∈ bucketAt map bi := by
  rw [entriesOf, List.mem_flatMap]
  constructor
  · rintro ⟨bi, -, he⟩
    exact ⟨bi, he⟩
  · rintro ⟨bi, he⟩
    exact ⟨bi, List.mem_finRange bi, he⟩

theorem mapDestroy_eq {σ : Type} (map : HashMap κ ν n)
    (destroyVal : σ → ν → σ) (state : σ) :
    mapDestroy map destroyVal state =
      ((entriesOf map).map Entry.val).foldl destroyVal state := by
  rw [mapDestroy, entriesOf, List.foldl_map, List.foldl_flatMap]
  congr 1
  funext state bi
  rw [bucketAt]
  cases map.buckets bi with
  | none => rfl
  | some bucket => rfl

theorem bucketTotal_update {map next : HashMap κ ν n} {b : Fin n} {bucket : List (Entry κ ν)}
    (h : bucketAt next = Function.update (bucketAt map) b bucket) :
    bucketTotal next + (bucketAt map b).length = bucketTotal map + bucket.length := by
  have hother : ∑ bi ∈ Finset.univ.erase b, (bucketAt next bi).length =
      ∑ bi ∈ Finset.univ.erase b, (bucketAt map bi).length := by
    apply Finset.sum_congr rfl
    intro bi hbi
    rw [h, Function.update_of_ne (Finset.ne_of_mem_erase hbi)]
  rw [bucketTotal, bucketTotal, ← Finset.add_sum_erase _ _ (Finset.mem_univ b), hother,
    ← Finset.add_sum_erase _ _ (Finset.mem_univ b), h, Function.update_self]
  omega

variable [NeZero n] {hash : κ → Nat} {compare : κ → κ → Int}

/-- The keys for which `map_get` returns a value, each taken up to equivalence. -/
def heldKeys (hash : κ → Nat) (hsame : Equivalence (Same compare)) (map : HashMap κ ν n) :
    Set (Quotient ⟨Same compare, hsame⟩) :=
  {c | ∃ key, Quotient.mk _ key = c ∧ mapGet hash compare map key ≠ none}

theorem WellFormed.distinct_entriesOf (hhash : Respects hash compare) {map : HashMap κ ν n}
    (h : WellFormed hash compare map) : Distinct (Same compare) (entriesOf map) := by
  rw [Distinct, entriesOf, List.pairwise_flatMap]
  constructor
  · intro bi _
    exact h.distinct bi
  · apply (List.nodup_finRange n).imp
    intro bi bi' hne e he e' he' hkey
    apply hne
    rw [← h.placed bi e he, ← h.placed bi' e' he']
    exact hhash.bucket_eq hkey

theorem WellFormed.mapGet_ne_none (hhash : Respects hash compare) {map : HashMap κ ν n}
    (h : WellFormed hash compare map) (key : κ) :
    mapGet hash compare map key ≠ none ↔ ∃ e ∈ entriesOf map, Same compare e.key key := by
  rw [mapGet_eq, Ne, get_eq_none_iff]
  push Not
  constructor
  · rintro ⟨e, he, hkey⟩
    exact ⟨e, mem_entriesOf.mpr ⟨_, he⟩, hkey⟩
  · rintro ⟨e, he, hkey⟩
    obtain ⟨bi, he⟩ := mem_entriesOf.mp he
    have hbi := h.placed bi e he
    rw [hhash.bucket_eq hkey] at hbi
    subst hbi
    exact ⟨e, he, hkey⟩

theorem WellFormed.mapGet_of_mem (hsame : Equivalence (Same compare)) {map : HashMap κ ν n}
    (h : WellFormed hash compare map) {e : Entry κ ν} (he : e ∈ entriesOf map) :
    mapGet hash compare map e.key = some e.val := by
  obtain ⟨bi, he⟩ := mem_entriesOf.mp he
  rw [mapGet_eq, h.placed bi e he]
  exact get_of_mem hsame (h.distinct bi) he

theorem ncard_heldKeys (hsame : Equivalence (Same compare)) (hhash : Respects hash compare)
    {map : HashMap κ ν n} (h : WellFormed hash compare map) :
    (heldKeys hash hsame map).ncard = bucketTotal map := by
  have hset : heldKeys hash hsame map = {c | c ∈ classes hsame (entriesOf map)} := by
    ext c
    constructor
    · rintro ⟨key, rfl, hheld⟩
      obtain ⟨e, he, hkey⟩ := (h.mapGet_ne_none hhash key).mp hheld
      exact List.mem_map.mpr ⟨e, he, Quotient.sound hkey⟩
    · intro hc
      obtain ⟨e, he, rfl⟩ := List.mem_map.mp hc
      exact ⟨e.key, rfl, (h.mapGet_ne_none hhash e.key).mpr ⟨e, he, hsame.refl e.key⟩⟩
  rw [hset, (h.distinct_entriesOf hhash).ncard_classes hsame, length_entriesOf]

/-- No `map_remove` of the sequence finds an entry for its key. -/
def Spared (hash : κ → Nat) (compare : κ → κ → Int) (map : HashMap κ ν n) :
    List (Operation κ ν) → Prop
  | [] => True
  | operation :: operations =>
      (∀ key, operation = .remove key → mapGet hash compare map key = none) ∧
        Spared hash compare (step hash compare map operation).2 operations

theorem removed_size {map : HashMap κ ν n} {key : κ}
    (h : mapGet hash compare map key ≠ none) :
    mapSize (mapRemove hash compare map key).2 = mapSize map ∧
      bucketTotal (mapRemove hash compare map key).2 + 1 = bucketTotal map := by
  obtain ⟨-, hbuckets, hsize⟩ := mapRemove_spec hash compare map key
  have htotal := bucketTotal_update hbuckets
  have hlength := length_remove (Same compare)
    (bucketAt map (mapGetBucket hash n key)) key
  rw [mapGet_eq] at h
  rw [if_neg h] at hlength
  exact ⟨hsize, by omega⟩

theorem step_size {map : HashMap κ ν n} {operation : Operation κ ν}
    (h : ∀ key, operation = .remove key → mapGet hash compare map key = none) :
    mapSize (step hash compare map operation).2 + bucketTotal map =
      mapSize map + bucketTotal (step hash compare map operation).2 := by
  cases operation with
  | set key val =>
      obtain ⟨-, hbuckets, hsize⟩ := mapSet_spec hash compare map key val
      have htotal := bucketTotal_update hbuckets
      have hlength := length_put (Same compare)
        (bucketAt map (mapGetBucket hash n key)) key val
      rw [mapGet_eq] at hsize
      rw [step, mapSize, mapSize, hsize]
      split_ifs at hlength ⊢ <;> omega
  | get key => rfl
  | remove key =>
      obtain ⟨-, hbuckets, hsize⟩ := mapRemove_spec hash compare map key
      have htotal := bucketTotal_update hbuckets
      have hlength := length_remove (Same compare)
        (bucketAt map (mapGetBucket hash n key)) key
      have habsent := h key rfl
      rw [mapGet_eq] at habsent
      rw [if_pos habsent] at hlength
      rw [step, mapSize, mapSize, hsize]
      omega

theorem size_after {map : HashMap κ ν n} (hle : bucketTotal map ≤ mapSize map)
    (operations : List (Operation κ ν)) :
    mapSize (after hash compare map operations) =
        bucketTotal (after hash compare map operations) ↔
      mapSize map = bucketTotal map ∧ Spared hash compare map operations := by
  induction operations generalizing map with
  | nil => exact (and_iff_left trivial).symm
  | cons operation operations ih =>
      rw [after, Spared]
      by_cases hspared : ∀ key, operation = .remove key → mapGet hash compare map key = none
      · have hsize := step_size hspared
        rw [ih (by omega)]
        constructor
        · rintro ⟨hequal, hrest⟩
          exact ⟨by omega, hspared, hrest⟩
        · rintro ⟨hequal, -, hrest⟩
          exact ⟨by omega, hrest⟩
      · rw [not_forall] at hspared
        obtain ⟨key, hkey⟩ := hspared
        rw [Classical.not_imp] at hkey
        obtain ⟨rfl, hheld⟩ := hkey
        obtain ⟨hsize, htotal⟩ := removed_size hheld
        rw [step, ih (by omega)]
        constructor
        · rintro ⟨hequal, -⟩
          omega
        · rintro ⟨-, hnone, -⟩
          exact absurd (hnone key rfl) hheld

theorem map_size_counts (hsame : Equivalence (Same compare)) (hhash : Respects hash compare)
    (operations : List (Operation κ ν)) :
    let map := after hash compare (mapCreate κ ν n) operations
    (mapSize map = (heldKeys hash hsame map).ncard ∧ mapSize map = bucketTotal map) ↔
      Spared hash compare (mapCreate κ ν n) operations := by
  intro map
  have hcreate : bucketTotal (mapCreate κ ν n) = 0 := Finset.sum_const_zero
  rw [ncard_heldKeys hsame hhash (wellFormed_mapCreate.after hsame operations), and_self,
    size_after (hcreate.trans_le (Nat.zero_le _))]
  exact and_iff_right hcreate.symm

theorem map_size_counts_collisions :
    mapSize (after (fun key => key) (fun a b : Nat => (a : Int) - b) (mapCreate Nat Nat 1)
      [.set 4 40, .set 2 20, .set 4 41, .remove 3]) = 2 ∧
    (heldKeys (fun key => key) equivalence_sub
      (after (fun key => key) (fun a b : Nat => (a : Int) - b) (mapCreate Nat Nat 1)
        [.set 4 40, .set 2 20, .set 4 41, .remove 3])).ncard = 2 := by
  have hspared : Spared (fun key => key) (fun a b : Nat => (a : Int) - b) (mapCreate Nat Nat 1)
      [.set 4 40, .set 2 20, .set 4 41, .remove 3] := by
    refine ⟨nofun, nofun, nofun, ?_, trivial⟩
    rintro key ⟨⟩
    decide
  have hcounts := (map_size_counts equivalence_sub (respects_sub fun key => key) _).mpr hspared
  have hsize : mapSize (after (fun key => key) (fun a b : Nat => (a : Int) - b)
      (mapCreate Nat Nat 1) [.set 4 40, .set 2 20, .set 4 41, .remove 3]) = 2 := by decide
  exact ⟨hsize, hcounts.1.symm.trans hsize⟩

theorem removed_still_counted :
    ∃ operations : List (Operation Nat Nat),
      let map := after (fun key => key) (fun a b : Nat => (a : Int) - b) (mapCreate Nat Nat 1)
        operations
      mapSize map = 1 ∧ (heldKeys (fun key => key) equivalence_sub map).ncard = 0 ∧
        bucketTotal map = 0 := by
  refine ⟨[.set 4 40, .remove 4], by decide, ?_, by decide⟩
  rw [ncard_heldKeys equivalence_sub (respects_sub _)
    (wellFormed_mapCreate.after equivalence_sub _)]
  decide

end Sizes

end Whosecoin.HashMaps
