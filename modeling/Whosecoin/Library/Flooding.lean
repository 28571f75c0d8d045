import Mathlib

/-!
Flooding of items over links that may carry several copies and deliver them in any order.
An item is handled at most once at every node, and once no copy is under way it has been
handled wherever the links lead.
-/

namespace Whosecoin.Library.Flooding

variable {ι σ γ : Type*}

/-- A network that floods items. Each node knows some of them, and its channels
carry copies of items and, as `none`, whatever is not flooded. -/
structure State (ι σ γ : Type*) where
  known : ι → Set γ
  channel : ι → σ → List (Option γ)
  origin : γ → Option ι
  handled : ι → γ → Nat

variable (far : ι → σ → Option (ι × σ))

/-- Copies of the item, at least one on each link of the node. -/
structure Copies (i : ι) (item : γ) (more : σ → List (Option γ)) : Prop where
  only : ∀ s, ∀ m ∈ more s, m = some item
  all : ∀ s j t, far i s = some (j, t) → some item ∈ more s

/-- Every link of a node that knows an item leads to another one that does, or
carries a copy. -/
structure Inv (a : State ι σ γ) : Prop where
  unknown : ∀ item, a.origin item = none → (∀ i, item ∉ a.known i) ∧
    (∀ i s, some item ∉ a.channel i s) ∧ ∀ i, a.handled i item = 0
  origin_known : ∀ item i, a.origin item = some i → item ∈ a.known i
  handled_eq : ∀ item i, (item ∈ a.known i ∧ a.origin item ≠ some i ∧
    a.handled i item = 1) ∨
    ((item ∉ a.known i ∨ a.origin item = some i) ∧ a.handled i item = 0)
  spread : ∀ item i, item ∈ a.known i → ∀ s j t, far i s = some (j, t) →
    item ∈ a.known j ∨ some item ∈ a.channel i s

/-- Nothing is known, sent or handled yet. -/
def start : State ι σ γ where
  known := fun _ => ∅
  channel := fun _ _ => []
  origin := fun _ => none
  handled := fun _ _ => 0

theorem inv_start (far : ι → σ → Option (ι × σ)) : Inv far (start : State ι σ γ) where
  unknown := fun _ _ => ⟨fun _ => Set.notMem_empty _, fun _ _ => List.not_mem_nil, fun _ => rfl⟩
  origin_known := by
    intro item i horigin
    cases horigin
  handled_eq := fun _ _ => Or.inr ⟨Or.inl (Set.notMem_empty _), rfl⟩
  spread := by
    intro item i hi
    cases hi

section Reach

variable {far} {a : State ι σ γ}

/-- A link leads from the one node to the other. -/
def Linked (far : ι → σ → Option (ι × σ)) (i j : ι) : Prop :=
  ∃ s t, far i s = some (j, t)

/-- When no copy of an item is under way, all that it can reach know it. -/
theorem known_of_path (h : Inv far a) {item : γ} (hrest : ∀ i s, some item ∉ a.channel i s)
    {i j : ι} (hi : item ∈ a.known i) (hpath : Relation.ReflTransGen (Linked far) i j) :
    item ∈ a.known j := by
  induction hpath with
  | refl => exact hi
  | @tail k l _ hlink ih =>
      obtain ⟨s, t, hfar⟩ := hlink
      exact (h.spread item k ih s l t hfar).resolve_right (hrest k s)

theorem handled_le_one (h : Inv far a) (item : γ) (i : ι) : a.handled i item ≤ 1 := by
  rcases h.handled_eq item i with ⟨-, -, hone⟩ | ⟨-, hzero⟩ <;> omega

theorem handled_origin (h : Inv far a) {item : γ} {i : ι} (horigin : a.origin item = some i) :
    a.handled i item = 0 := by
  rcases h.handled_eq item i with ⟨-, hne, -⟩ | ⟨-, hzero⟩
  · exact absurd horigin hne
  · exact hzero

theorem handled_of_path (h : Inv far a) {item : γ} {i j : ι} (horigin : a.origin item = some i)
    (hrest : ∀ i s, some item ∉ a.channel i s) (hne : j ≠ i)
    (hpath : Relation.ReflTransGen (Linked far) i j) : a.handled j item = 1 := by
  have hknown := known_of_path h hrest (h.origin_known item i horigin) hpath
  rcases h.handled_eq item j with ⟨-, -, hone⟩ | ⟨hnot | hsame, -⟩
  · exact hone
  · exact absurd hknown hnot
  · rw [horigin, Option.some.injEq] at hsame
    exact absurd hsame.symm hne

end Reach

section Channels

variable [DecidableEq ι] {channel : ι → σ → List (Option γ)} {i j : ι} {s t : σ}
  {more : σ → List (Option γ)} {m : Option γ} {rest : List (Option γ)}

/-- More for the channels of one node. -/
def push (channel : ι → σ → List (Option γ)) (i : ι) (more : σ → List (Option γ)) :
    ι → σ → List (Option γ) :=
  Function.update channel i fun s => channel i s ++ more s

theorem push_apply (channel : ι → σ → List (Option γ)) (i j : ι)
    (more : σ → List (Option γ))
    (u : σ) : push channel i more j u = channel j u ++ if j = i then more u else [] := by
  rw [push]
  split_ifs with heq
  · rw [heq, Function.update_self]
  · rw [Function.update_of_ne heq, List.append_nil]

theorem mem_push_iff :
    m ∈ push channel i more j t ↔ m ∈ channel j t ∨ j = i ∧ m ∈ more t := by
  rw [push_apply, List.mem_append]
  apply or_congr_right
  split_ifs with heq
  · rw [and_iff_right heq]
  · simp [heq]

theorem mem_learn_iff {known : ι → Set γ} {item item' : γ} :
    item' ∈ Function.update known i (insert item (known i)) j ↔
      item' ∈ known j ∨ j = i ∧ item' = item := by
  rcases eq_or_ne j i with rfl | hne
  · rw [Function.update_self, Set.mem_insert_iff, or_comm, and_iff_right rfl]
  · simp [hne]

variable [DecidableEq σ]

/-- What is left for one channel. -/
def pop (channel : ι → σ → List (Option γ)) (i : ι) (s : σ) (rest : List (Option γ)) :
    ι → σ → List (Option γ) :=
  Function.update channel i (Function.update (channel i) s rest)

theorem pop_apply (channel : ι → σ → List (Option γ)) (i j : ι) (s u : σ)
    (rest : List (Option γ)) :
    pop channel i s rest j u = if j = i ∧ u = s then rest else channel j u := by
  rw [pop]
  split_ifs with heq
  · rw [heq.1, heq.2, Function.update_self, Function.update_self]
  · rcases eq_or_ne j i with rfl | hne
    · rw [Function.update_self, Function.update_of_ne (fun hu => heq ⟨rfl, hu⟩)]
    · rw [Function.update_of_ne hne]

theorem mem_of_mem_pop {head : Option γ} (hhead : channel i s = head :: rest)
    (h : m ∈ pop channel i s rest j t) : m ∈ channel j t := by
  rw [pop_apply] at h
  split_ifs at h with heq
  · rw [heq.1, heq.2, hhead]
    exact List.mem_cons_of_mem head h
  · exact h

theorem mem_pop_or {head : Option γ} (hhead : channel i s = head :: rest)
    (h : m ∈ channel j t) : m ∈ pop channel i s rest j t ∨ j = i ∧ t = s ∧ m = head := by
  rw [pop_apply]
  split_ifs with heq
  · rw [heq.1, heq.2, hhead, List.mem_cons] at h
    exact h.symm.imp_right fun hm => ⟨heq.1, heq.2, hm⟩
  · exact Or.inl h

theorem pop_push :
    pop (push channel j more) i s (rest ++ if i = j then more s else []) =
      push (pop channel i s rest) j more := by
  funext k u
  rw [pop_apply, push_apply, push_apply, pop_apply]
  split_ifs with heq hij hkj hkj hkj
  · rw [heq.2]
  · exact absurd (heq.1.trans hij) hkj
  · exact absurd (heq.1.symm.trans hkj) hij
  · rfl
  · rfl
  · rfl

end Channels

section Steps

variable [DecidableEq ι] [DecidableEq σ] [DecidableEq γ]

/-- A node takes note of an item when it originates it, or when it is handed the
first copy of it, and sends copies to all its links. -/
inductive Step (a : State ι σ γ) : State ι σ γ → Prop where
  | originate {i : ι} {item : γ} {more : σ → List (Option γ)} (hnew : a.origin item = none)
      (hmore : Copies far i item more) :
      Step a { a with
        known := Function.update a.known i (insert item (a.known i))
        channel := push a.channel i more
        origin := Function.update a.origin item (some i) }
  | direct {i : ι} {more : σ → List (Option γ)} (hmore : ∀ s, ∀ m ∈ more s, m = none) :
      Step a { a with channel := push a.channel i more }
  | ignore {i j : ι} {s t : σ} {m : Option γ} {rest : List (Option γ)}
      (hfar : far i s = some (j, t)) (hhead : a.channel i s = m :: rest)
      (hknown : ∀ item, m = some item → item ∈ a.known j) :
      Step a { a with channel := pop a.channel i s rest }
  | accept {i j : ι} {s t : σ} {item : γ} {rest : List (Option γ)}
      {more : σ → List (Option γ)}
      (hfar : far i s = some (j, t)) (hhead : a.channel i s = some item :: rest)
      (hnew : item ∉ a.known j) (hmore : Copies far j item more) :
      Step a { a with
        known := Function.update a.known j (insert item (a.known j))
        channel := push (pop a.channel i s rest) j more
        handled := Function.update a.handled j
          (Function.update (a.handled j) item (a.handled j item + 1)) }

variable {far} {a b : State ι σ γ}

omit [DecidableEq σ] in
theorem inv_originate {i : ι} {item : γ} {more : σ → List (Option γ)} (h : Inv far a)
    (hnew : a.origin item = none) (hmore : Copies far i item more) :
    Inv far { a with
      known := Function.update a.known i (insert item (a.known i))
      channel := push a.channel i more
      origin := Function.update a.origin item (some i) } := by
  obtain ⟨hunknown, -, hunhandled⟩ := h.unknown item hnew
  constructor
  · intro item' hnone
    change Function.update a.origin item (some i) item' = none at hnone
    have hne : item' ≠ item := by
      rintro rfl
      rw [Function.update_self] at hnone
      cases hnone
    rw [Function.update_of_ne hne] at hnone
    obtain ⟨hknown, hchannel, hhandled⟩ := h.unknown item' hnone
    refine ⟨?_, ?_, hhandled⟩
    · intro j hj
      rcases mem_learn_iff.mp hj with hj | ⟨-, heq⟩
      · exact hknown j hj
      · exact hne heq
    · intro j t hmem
      rcases mem_push_iff.mp hmem with hmem | ⟨-, hmem⟩
      · exact hchannel j t hmem
      · exact hne (Option.some.inj (hmore.only t _ hmem))
  · intro item' j horigin
    change Function.update a.origin item (some i) item' = some j at horigin
    rw [mem_learn_iff]
    rcases eq_or_ne item' item with rfl | hne
    · rw [Function.update_self, Option.some.injEq] at horigin
      exact Or.inr ⟨horigin.symm, rfl⟩
    · rw [Function.update_of_ne hne] at horigin
      exact Or.inl (h.origin_known item' j horigin)
  · intro item' j
    rw [mem_learn_iff]
    dsimp only
    rcases eq_or_ne item' item with rfl | hne
    · rw [Function.update_self, Option.some.injEq]
      refine Or.inr ⟨?_, hunhandled j⟩
      rcases eq_or_ne i j with rfl | hne
      · exact Or.inr rfl
      · refine Or.inl ?_
        rintro (hj | ⟨heq, -⟩)
        · exact hunknown j hj
        · exact hne heq.symm
    · rw [Function.update_of_ne hne]
      simpa [hne] using h.handled_eq item' j
  · intro item' j hj s k t hfar
    rw [mem_learn_iff, mem_push_iff]
    rcases mem_learn_iff.mp hj with hj | ⟨rfl, rfl⟩
    · exact (h.spread item' j hj s k t hfar).imp Or.inl Or.inl
    · exact Or.inr (Or.inr ⟨rfl, hmore.all s k t hfar⟩)

omit [DecidableEq σ] [DecidableEq γ] in
theorem inv_direct {i : ι} {more : σ → List (Option γ)} (h : Inv far a)
    (hmore : ∀ s, ∀ m ∈ more s, m = none) :
    Inv far { a with channel := push a.channel i more } := by
  refine ⟨?_, h.origin_known, h.handled_eq, ?_⟩
  · intro item hnone
    obtain ⟨hknown, hchannel, hhandled⟩ := h.unknown item hnone
    refine ⟨hknown, ?_, hhandled⟩
    intro j t hmem
    rcases mem_push_iff.mp hmem with hmem | ⟨-, hmem⟩
    · exact hchannel j t hmem
    · cases hmore t _ hmem
  · intro item j hj s k t hfar
    rw [mem_push_iff]
    exact (h.spread item j hj s k t hfar).imp_right Or.inl

omit [DecidableEq γ] in
theorem inv_ignore {i j : ι} {s t : σ} {m : Option γ} {rest : List (Option γ)} (h : Inv far a)
    (hfar : far i s = some (j, t)) (hhead : a.channel i s = m :: rest)
    (hknown : ∀ item, m = some item → item ∈ a.known j) :
    Inv far { a with channel := pop a.channel i s rest } := by
  refine ⟨?_, h.origin_known, h.handled_eq, ?_⟩
  · intro item hnone
    obtain ⟨hunknown, hchannel, hhandled⟩ := h.unknown item hnone
    exact ⟨hunknown, fun k u hmem => hchannel k u (mem_of_mem_pop hhead hmem), hhandled⟩
  · intro item k hk u l v hfar'
    rcases h.spread item k hk u l v hfar' with hl | hmem
    · exact Or.inl hl
    rcases mem_pop_or hhead hmem with hmem | ⟨rfl, rfl, heq⟩
    · exact Or.inr hmem
    · rw [hfar, Option.some.injEq, Prod.mk.injEq] at hfar'
      exact Or.inl (hfar'.1 ▸ hknown item heq.symm)

theorem inv_accept {i j : ι} {s t : σ} {item : γ} {rest : List (Option γ)}
    {more : σ → List (Option γ)} (h : Inv far a) (hfar : far i s = some (j, t))
    (hhead : a.channel i s = some item :: rest) (hnew : item ∉ a.known j)
    (hmore : Copies far j item more) :
    Inv far { a with
      known := Function.update a.known j (insert item (a.known j))
      channel := push (pop a.channel i s rest) j more
      handled := Function.update a.handled j
        (Function.update (a.handled j) item (a.handled j item + 1)) } := by
  have hsome : a.origin item ≠ none := by
    intro hnone
    apply (h.unknown item hnone).2.1 i s
    rw [hhead]
    exact List.mem_cons_self
  constructor
  · intro item' hnone
    have hne : item' ≠ item := by
      rintro rfl
      exact hsome hnone
    obtain ⟨hunknown, hchannel, hhandled⟩ := h.unknown item' hnone
    refine ⟨?_, ?_, ?_⟩
    · intro k hk
      rcases mem_learn_iff.mp hk with hk | ⟨-, heq⟩
      · exact hunknown k hk
      · exact hne heq
    · intro k u hmem
      rcases mem_push_iff.mp hmem with hmem | ⟨-, hmem⟩
      · exact hchannel k u (mem_of_mem_pop hhead hmem)
      · exact hne (Option.some.inj (hmore.only u _ hmem))
    · intro k
      rcases eq_or_ne k j with rfl | hk
      · simp only [Function.update_self, Function.update_of_ne hne, hhandled]
      · simp only [Function.update_of_ne hk, hhandled]
  · intro item' k horigin
    rw [mem_learn_iff]
    exact Or.inl (h.origin_known item' k horigin)
  · intro item' k
    rw [mem_learn_iff]
    by_cases hthis : k = j ∧ item' = item
    · obtain ⟨rfl, rfl⟩ := hthis
      have horigin : a.origin item' ≠ some k := by
        intro horigin
        exact hnew (h.origin_known item' k horigin)
      have hzero : a.handled k item' = 0 := by
        rcases h.handled_eq item' k with ⟨hknown, -, -⟩ | ⟨-, hzero⟩
        · exact absurd hknown hnew
        · exact hzero
      refine Or.inl ⟨Or.inr ⟨rfl, rfl⟩, horigin, ?_⟩
      simp only [Function.update_self, hzero]
    · have hsame : Function.update a.handled j
          (Function.update (a.handled j) item (a.handled j item + 1)) k item' =
            a.handled k item' := by
        rcases eq_or_ne k j with rfl | hk
        · rw [Function.update_self, Function.update_of_ne (fun heq => hthis ⟨rfl, heq⟩)]
        · rw [Function.update_of_ne hk]
      simp only [hsame, hthis, or_false]
      exact h.handled_eq item' k
  · intro item' k hk u l v hfar'
    rw [mem_learn_iff, mem_push_iff]
    rcases mem_learn_iff.mp hk with hk | ⟨rfl, rfl⟩
    · rcases h.spread item' k hk u l v hfar' with hl | hmem
      · exact Or.inl (Or.inl hl)
      rcases mem_pop_or hhead hmem with hmem | ⟨rfl, rfl, heq⟩
      · exact Or.inr (Or.inl hmem)
      · rw [hfar, Option.some.injEq, Prod.mk.injEq] at hfar'
        exact Or.inl (Or.inr ⟨hfar'.1.symm, Option.some.inj heq⟩)
    · exact Or.inr (Or.inr ⟨rfl, hmore.all u l v hfar'⟩)

theorem inv_step (h : Inv far a) (hstep : Step far a b) : Inv far b := by
  cases hstep with
  | originate hnew hmore => exact inv_originate h hnew hmore
  | direct hmore => exact inv_direct h hmore
  | ignore hfar hhead hknown => exact inv_ignore h hfar hhead hknown
  | accept hfar hhead hnew hmore => exact inv_accept h hfar hhead hnew hmore

theorem inv_run (h : Inv far a) (hrun : Relation.ReflTransGen (Step far) a b) : Inv far b := by
  induction hrun with
  | refl => exact h
  | tail _ hstep ih => exact inv_step ih hstep

end Steps

end Whosecoin.Library.Flooding
