import Whosecoin.Http

namespace Whosecoin.Routing

open Library.Outcomes
open Http

/-- Every wildcard of the pattern is at the end or before a slash. -/
def WildcardsEnd (pattern : List UInt8) : Prop :=
  ∀ rest, 58 :: rest <:+ pattern → rest = [] ∨ rest.head? = some 47

/-- The number of wildcards. -/
def wildcards (pattern : List UInt8) : Nat :=
  pattern.count 58

/-- The pattern with its wildcards replaced in order. -/
def substitute : (pattern : List UInt8) → (params : List (List UInt8)) → List UInt8
  | [], _ => []
  | c :: pattern, params =>
      if c = 58 then params.headD [] ++ substitute pattern params.tail
      else c :: substitute pattern params

/-- The strings are equal up to one trailing slash. -/
def Alike (text url : List UInt8) : Prop :=
  url = text ∨ url = text ++ [47] ∨ url ++ [47] = text

/-- The url is the pattern with these parameters for its wildcards. -/
structure Obtained (pattern url : List UInt8) (params : List (List UInt8)) : Prop where
  count : params.length = wildcards pattern
  slash_free : ∀ param ∈ params, 47 ∉ param
  alike : Alike (substitute pattern params) url

/-- What the router is to do with a pattern and a url. -/
structure Routed (pattern url : List UInt8) : Prop where
  request_iff : (requestCreate pattern url).isSome ↔ ∃ params, Obtained pattern url params
  params_count : ∀ req, requestCreate pattern url = some req →
    req.params.length = wildcards pattern
  params_alike : ∀ req, requestCreate pattern url = some req →
    Alike (substitute pattern req.params) url

/-- The url lacks the slash before the last, empty parameter. -/
def Cut (pattern url : List UInt8) (params : List (List UInt8)) : Prop :=
  url ++ [47] = substitute pattern params ∧ pattern.getLast? = some 58

section Alike

variable {text url : List UInt8}

theorem alike_nil_left : Alike [] url ↔ url = [] ∨ url = [47] := by
  simp [Alike]

theorem alike_nil_right : Alike text [] ↔ text = [] ∨ text = [47] := by
  rw [Alike, eq_comm, List.nil_append, @eq_comm _ [47]]
  simp

@[simp] theorem alike_cons (c d : UInt8) :
    Alike (c :: text) (d :: url) ↔ c = d ∧ Alike text url := by
  simp only [Alike, List.cons_append, List.cons.injEq]
  grind

theorem alike_append (p : List UInt8) : Alike (p ++ text) (p ++ url) ↔ Alike text url := by
  simp [Alike]

theorem split_at_slash {param rest : List UInt8} (hslash : 47 ∉ param)
    (hrest : rest = [] ∨ rest.head? = some 47) :
    (param ++ rest).takeWhile (· ≠ 47) = param ∧
    (param ++ rest).dropWhile (· ≠ 47) = rest := by
  have hpass : ∀ c ∈ param, decide (c ≠ 47) = true := by
    intro c hc
    exact decide_eq_true fun heq => hslash (heq ▸ hc)
  have hstop : rest.takeWhile (· ≠ 47) = [] ∧ rest.dropWhile (· ≠ 47) = rest := by
    rcases rest with _ | ⟨d, rest⟩
    · exact ⟨rfl, rfl⟩
    · simp_all
  rw [List.takeWhile_append_of_pos hpass, List.dropWhile_append_of_pos hpass, hstop.1, hstop.2,
    List.append_nil]
  exact ⟨rfl, rfl⟩

theorem exists_rest {param : List UInt8} (hslash : 47 ∉ param)
    (htext : text = [] ∨ text.head? = some 47) (h : Alike (param ++ text) url) :
    ∃ rest, url = param ++ rest ∧ (rest = [] ∨ rest.head? = some 47) := by
  rcases h with rfl | rfl | hcut
  · exact ⟨text, rfl, htext⟩
  · refine ⟨text ++ [47], List.append_assoc _ _ _, .inr ?_⟩
    rcases htext with rfl | hhead
    · rfl
    · rw [List.head?_append, hhead]
      rfl
  · rcases List.append_eq_append_iff.mp hcut with ⟨more, rfl, hmore⟩ | ⟨rest, rfl, rfl⟩
    · rcases more with _ | ⟨d, more⟩
      · exact ⟨[], by rw [List.append_nil, List.append_nil], .inl rfl⟩
      · rw [List.cons_append, List.cons.injEq] at hmore
        rw [← hmore.1] at hslash
        exact absurd (List.mem_append_right _ List.mem_cons_self) hslash
    · refine ⟨rest, rfl, ?_⟩
      rcases rest with _ | ⟨d, rest⟩
      · exact .inl rfl
      · rcases htext with htext | htext
        · cases htext
        · exact .inr htext

theorem alike_param_iff {param : List UInt8} (hslash : 47 ∉ param)
    (htext : text = [] ∨ text.head? = some 47) :
    Alike (param ++ text) url ↔
      param = url.takeWhile (· ≠ 47) ∧ Alike text (url.dropWhile (· ≠ 47)) := by
  constructor
  · intro halike
    obtain ⟨rest, rfl, hrest⟩ := exists_rest hslash htext halike
    rw [(split_at_slash hslash hrest).1, (split_at_slash hslash hrest).2]
    exact ⟨rfl, (alike_append param).mp halike⟩
  · rintro ⟨rfl, halike⟩
    rw [← alike_append (url.takeWhile (· ≠ 47)), List.takeWhile_append_dropWhile] at halike
    exact halike

end Alike

section Obtained

variable {c : UInt8} {pattern url : List UInt8} {params : List (List UInt8)}

theorem WildcardsEnd.tail (h : WildcardsEnd (c :: pattern)) : WildcardsEnd pattern :=
  fun rest hsuffix => h rest (hsuffix.trans (List.suffix_cons c pattern))

theorem WildcardsEnd.next (h : WildcardsEnd (58 :: pattern)) :
    pattern = [] ∨ pattern.head? = some 47 :=
  h pattern (List.suffix_refl _)

theorem substitute_literal (hc : c ≠ 58) :
    substitute (c :: pattern) params = c :: substitute pattern params :=
  if_neg hc

theorem substitute_wildcard (param : List UInt8) :
    substitute (58 :: pattern) (param :: params) = param ++ substitute pattern params :=
  rfl

theorem wildcards_literal (hc : c ≠ 58) : wildcards (c :: pattern) = wildcards pattern :=
  List.count_cons_of_ne hc

theorem wildcards_wildcard : wildcards (58 :: pattern) = wildcards pattern + 1 :=
  List.count_cons_self

theorem head_substitute (h : pattern = [] ∨ pattern.head? = some 47) :
    substitute pattern params = [] ∨ (substitute pattern params).head? = some 47 := by
  rcases pattern with _ | ⟨c, pattern⟩
  · exact .inl rfl
  · rcases h with h | h
    · cases h
    · rw [List.head?_cons, Option.some.injEq] at h
      rw [h, substitute_literal (by decide)]
      exact .inr rfl

theorem substitute_eq_nil (hends : WildcardsEnd pattern)
    (hcount : params.length = wildcards pattern) (h : substitute pattern params = []) :
    (pattern = [] ∧ params = []) ∨ (pattern = [58] ∧ params = [[]]) := by
  rcases pattern with _ | ⟨c, pattern⟩
  · exact .inl ⟨rfl, List.length_eq_zero_iff.mp hcount⟩
  · right
    by_cases hc : c = 58
    · subst hc
      rcases params with _ | ⟨param, params⟩
      · rw [wildcards_wildcard] at hcount
        cases hcount
      · rw [substitute_wildcard, List.append_eq_nil_iff] at h
        obtain ⟨rfl, hrest⟩ := h
        rcases hends.next with rfl | hhead
        · rw [wildcards_wildcard, List.length_cons, add_left_inj] at hcount
          rw [List.length_eq_zero_iff.mp hcount]
          exact ⟨rfl, rfl⟩
        · rcases pattern with _ | ⟨d, pattern⟩
          · cases hhead
          · rw [List.head?_cons, Option.some.injEq] at hhead
            rw [hhead, substitute_literal (by decide)] at hrest
            cases hrest
    · rw [substitute_literal hc] at h
      cases h

theorem obtained_nil_iff : Obtained [] url params ↔
    params = [] ∧ (url = [] ∨ url = [47]) := by
  constructor
  · rintro ⟨hcount, -, halike⟩
    exact ⟨List.length_eq_zero_iff.mp hcount, alike_nil_left.mp halike⟩
  · rintro ⟨rfl, hurl⟩
    exact ⟨rfl, fun param hparam => absurd hparam List.not_mem_nil, alike_nil_left.mpr hurl⟩

theorem obtained_literal_cons_iff (hc : c ≠ 58) (d : UInt8) :
    Obtained (c :: pattern) (d :: url) params ↔ c = d ∧ Obtained pattern url params := by
  constructor
  · rintro ⟨hcount, hslash, halike⟩
    rw [substitute_literal hc, alike_cons] at halike
    rw [wildcards_literal hc] at hcount
    exact ⟨halike.1, hcount, hslash, halike.2⟩
  · rintro ⟨rfl, hcount, hslash, halike⟩
    rw [← wildcards_literal hc] at hcount
    refine ⟨hcount, hslash, ?_⟩
    rw [substitute_literal hc, alike_cons]
    exact ⟨rfl, halike⟩

theorem obtained_literal_nil_iff (hends : WildcardsEnd (c :: pattern)) (hc : c ≠ 58) :
    Obtained (c :: pattern) [] params ↔
      c = 47 ∧ ((pattern = [] ∧ params = []) ∨ (pattern = [58] ∧ params = [[]])) := by
  constructor
  · rintro ⟨hcount, hslash, halike⟩
    rw [substitute_literal hc, alike_nil_right] at halike
    rw [wildcards_literal hc] at hcount
    rcases halike with hnil | hcons
    · cases hnil
    · rw [List.cons.injEq] at hcons
      exact ⟨hcons.1, substitute_eq_nil hends.tail hcount hcons.2⟩
  · rintro ⟨rfl, ⟨rfl, rfl⟩ | ⟨rfl, rfl⟩⟩
    · exact ⟨rfl, by simp, alike_nil_right.mpr (.inr rfl)⟩
    · exact ⟨rfl, by simp, alike_nil_right.mpr (.inr rfl)⟩

theorem obtained_wildcard_iff (hends : WildcardsEnd (58 :: pattern)) :
    Obtained (58 :: pattern) url params ↔ ∃ rest,
      params = url.takeWhile (· ≠ 47) :: rest ∧
      Obtained pattern (url.dropWhile (· ≠ 47)) rest := by
  constructor
  · rintro ⟨hcount, hslash, halike⟩
    rcases params with _ | ⟨param, params⟩
    · rw [wildcards_wildcard] at hcount
      cases hcount
    · rw [substitute_wildcard, alike_param_iff (hslash param List.mem_cons_self)
        (head_substitute hends.next)] at halike
      rw [wildcards_wildcard, List.length_cons, add_left_inj] at hcount
      refine ⟨params, by rw [halike.1], hcount, ?_, halike.2⟩
      intro other hother
      exact hslash other (List.mem_cons_of_mem _ hother)
  · rintro ⟨rest, rfl, hcount, hslash, halike⟩
    have hparam : 47 ∉ url.takeWhile (· ≠ 47) := by
      intro hmem
      have hne := List.mem_takeWhile_imp hmem
      exact absurd hne (by decide)
    constructor
    · rw [wildcards_wildcard, List.length_cons, hcount]
    · intro param hmem
      rcases List.mem_cons.mp hmem with rfl | hmem
      · exact hparam
      · exact hslash param hmem
    · rw [substitute_wildcard, alike_param_iff hparam (head_substitute hends.next)]
      exact ⟨rfl, halike⟩

/-- The parameters of a url are determined. -/
theorem Obtained.unique (hends : WildcardsEnd pattern) {others : List (List UInt8)}
    (h : Obtained pattern url params) (h' : Obtained pattern url others) : params = others := by
  induction pattern generalizing url params others with
  | nil => rw [(obtained_nil_iff.mp h).1, (obtained_nil_iff.mp h').1]
  | cons c pattern ih =>
      by_cases hc : c = 58
      · subst hc
        obtain ⟨rest, rfl, hrest⟩ := (obtained_wildcard_iff hends).mp h
        obtain ⟨rest', rfl, hrest'⟩ := (obtained_wildcard_iff hends).mp h'
        rw [ih hends.tail hrest hrest']
      · rcases url with _ | ⟨d, url⟩
        · obtain ⟨-, h⟩ := (obtained_literal_nil_iff hends hc).mp h
          obtain ⟨-, h'⟩ := (obtained_literal_nil_iff hends hc).mp h'
          grind
        · exact ih hends.tail ((obtained_literal_cons_iff hc d).mp h).2
            ((obtained_literal_cons_iff hc d).mp h').2

end Obtained

section Resolve

variable {c : UInt8} {pattern url : List UInt8} {params result : List (List UInt8)}

/-- What `resolve_pattern` finds: the parameters of the url, unless one of them begins like
a wildcard and is longer, or the last slash is missing before the last parameter. -/
structure Resolved (pattern url : List UInt8) (params : List (List UInt8)) : Prop where
  obtained : Obtained pattern url params
  short : ∀ param ∈ params, param.head? = some 58 → param = [58]
  uncut : ¬ Cut pattern url params

/-- A parameter that is a wildcard sign is taken for the text of the pattern. -/
def recorded (params : List (List UInt8)) : List (List UInt8) :=
  params.filter (· ≠ [58])

theorem cut_literal_iff (hc : c ≠ 58) (d : UInt8) (hcd : c = d) :
    Cut (c :: pattern) (d :: url) params ↔ Cut pattern url params := by
  subst hcd
  rw [Cut, Cut, substitute_literal hc, List.cons_append, List.cons.injEq, List.getLast?_cons]
  cases pattern.getLast? <;> simp [hc]

theorem cut_wildcard_iff (param : List UInt8) :
    Cut (58 :: pattern) (param ++ url) (param :: params) ↔ Cut pattern url params := by
  rw [Cut, Cut, substitute_wildcard, List.append_assoc, List.append_cancel_left_eq,
    List.getLast?_cons]
  rcases pattern with _ | ⟨c, pattern⟩
  · simp [substitute]
  · simp [List.getLast?_cons]

theorem resolved_literal_iff (hc : c ≠ 58) (d : UInt8) :
    Resolved (c :: pattern) (d :: url) params ↔ c = d ∧ Resolved pattern url params := by
  constructor
  · rintro ⟨hobtained, hshort, huncut⟩
    obtain ⟨hcd, hobtained⟩ := (obtained_literal_cons_iff hc d).mp hobtained
    exact ⟨hcd, hobtained, hshort, (cut_literal_iff hc d hcd).not.mp huncut⟩
  · rintro ⟨hcd, hobtained, hshort, huncut⟩
    exact ⟨(obtained_literal_cons_iff hc d).mpr ⟨hcd, hobtained⟩, hshort,
      (cut_literal_iff hc d hcd).not.mpr huncut⟩

theorem resolved_end_iff (hends : WildcardsEnd (c :: pattern)) (hc : c ≠ 58) :
    Resolved (c :: pattern) [] params ↔ c = 47 ∧ pattern = [] ∧ params = [] := by
  constructor
  · rintro ⟨hobtained, -, huncut⟩
    obtain ⟨rfl, ⟨rfl, rfl⟩ | ⟨rfl, rfl⟩⟩ :=
      (obtained_literal_nil_iff hends hc).mp hobtained
    · exact ⟨rfl, rfl, rfl⟩
    · exact absurd ⟨rfl, rfl⟩ huncut
  · rintro ⟨rfl, rfl, rfl⟩
    refine ⟨(obtained_literal_nil_iff hends hc).mpr ⟨rfl, .inl ⟨rfl, rfl⟩⟩, by simp, ?_⟩
    rintro ⟨-, hlast⟩
    cases hlast

theorem takeWhile_cons_of_ne (hc : c ≠ 47) :
    (c :: url).takeWhile (· ≠ 47) = c :: url.takeWhile (· ≠ 47) :=
  List.takeWhile_cons_of_pos (decide_eq_true hc)

theorem resolved_wildcard_iff (hends : WildcardsEnd (58 :: pattern)) :
    Resolved (58 :: pattern) url params ↔ ∃ rest,
      params = url.takeWhile (· ≠ 47) :: rest ∧ (url.head? = some 58 →
        url.takeWhile (· ≠ 47) = [58]) ∧
          Resolved pattern (url.dropWhile (· ≠ 47)) rest := by
  have hhead : (url.takeWhile (· ≠ 47)).head? = some 58 ↔ url.head? = some 58 := by
    rcases url with _ | ⟨d, url⟩
    · rfl
    · by_cases hd : d = 47
      · simp [hd]
      · rw [takeWhile_cons_of_ne hd]
        rfl
  have hcut : ∀ rest, Cut (58 :: pattern) url (url.takeWhile (· ≠ 47) :: rest) ↔
      Cut pattern (url.dropWhile (· ≠ 47)) rest := by
    intro rest
    have hsplit : Cut (58 :: pattern) (url.takeWhile (· ≠ 47) ++ url.dropWhile (· ≠ 47))
        (url.takeWhile (· ≠ 47) :: rest) ↔ Cut pattern (url.dropWhile (· ≠ 47)) rest :=
      cut_wildcard_iff _
    rwa [List.takeWhile_append_dropWhile] at hsplit
  constructor
  · rintro ⟨hobtained, hshort, huncut⟩
    obtain ⟨rest, rfl, hrest⟩ := (obtained_wildcard_iff hends).mp hobtained
    refine ⟨rest, rfl, ?_, hrest, ?_, (hcut rest).not.mp huncut⟩
    · intro hurl
      exact hshort _ List.mem_cons_self (hhead.mpr hurl)
    · intro param hparam
      exact hshort param (List.mem_cons_of_mem _ hparam)
  · rintro ⟨rest, rfl, hfirst, hobtained, hshort, huncut⟩
    refine ⟨(obtained_wildcard_iff hends).mpr ⟨rest, rfl, hobtained⟩, ?_,
      (hcut rest).not.mpr huncut⟩
    intro param hparam hcolon
    rcases List.mem_cons.mp hparam with rfl | hparam
    · exact hfirst (hhead.mp hcolon)
    · exact hshort param hparam hcolon

theorem Obtained.at_slash (hnext : pattern = [] ∨ pattern.head? = some 47)
    (h : Obtained pattern url params) : url = [] ∨ url.head? = some 47 := by
  rcases pattern with _ | ⟨c, pattern⟩
  · rcases (obtained_nil_iff.mp h).2 with rfl | rfl
    · exact .inl rfl
    · exact .inr rfl
  · rcases hnext with hnext | hnext
    · cases hnext
    · rw [List.head?_cons, Option.some.injEq] at hnext
      subst hnext
      rcases url with _ | ⟨d, url⟩
      · exact .inl rfl
      · rw [← ((obtained_literal_cons_iff (by decide) d).mp h).1]
        exact .inr rfl

theorem recorded_cons (param : List UInt8) (rest : List (List UInt8)) :
    recorded (param :: rest) =
      if param = [58] then recorded rest else param :: recorded rest := by
  rw [recorded, List.filter_cons]
  split_ifs <;> simp_all [recorded]

/-- A wildcard sign in the url is taken for the one in the pattern. -/
theorem resolved_colon_iff (hends : WildcardsEnd (58 :: pattern)) :
    (∃ found, Resolved (58 :: pattern) (58 :: url) found ∧
      result = params ++ recorded found) ↔
      ∃ found, Resolved pattern url found ∧ result = params ++ recorded found := by
  have htake : (58 :: url).takeWhile (· ≠ 47) = 58 :: url.takeWhile (· ≠ 47) :=
    takeWhile_cons_of_ne (by decide)
  have hdrop : (58 :: url).dropWhile (· ≠ 47) = url.dropWhile (· ≠ 47) :=
    List.dropWhile_cons_of_pos (by decide)
  constructor
  · rintro ⟨found, hfound, hresult⟩
    obtain ⟨rest, rfl, hshort, hrest⟩ := (resolved_wildcard_iff hends).mp hfound
    have hnone := hshort rfl
    have hall : url.dropWhile (· ≠ 47) = url := by
      rw [htake, List.cons.injEq] at hnone
      have hsplit := List.takeWhile_append_dropWhile (p := (· ≠ 47)) (l := url)
      rwa [hnone.2, List.nil_append] at hsplit
    rw [hdrop, hall] at hrest
    rw [recorded_cons, if_pos hnone] at hresult
    exact ⟨rest, hrest, hresult⟩
  · rintro ⟨found, hfound, hresult⟩
    have hslash : (47 : UInt8) ∉ ([] : List UInt8) := List.not_mem_nil
    obtain ⟨hnone, hall⟩ := split_at_slash hslash (hfound.obtained.at_slash hends.next)
    rw [List.nil_append] at hnone hall
    refine ⟨[58] :: found, (resolved_wildcard_iff hends).mpr ⟨found, ?_, ?_, ?_⟩, ?_⟩
    · rw [htake, hnone]
    · intro _
      rw [htake, hnone]
    · rw [hdrop, hall]
      exact hfound
    · rw [recorded_cons, if_pos rfl]
      exact hresult

theorem resolved_text_iff (hends : WildcardsEnd (58 :: pattern)) (hurl : url.head? ≠ some 58) :
    (∃ found, Resolved (58 :: pattern) url found ∧ result = params ++ recorded found) ↔
      ∃ found, Resolved pattern (url.dropWhile (· ≠ 47)) found ∧
        result = params ++ [url.takeWhile (· ≠ 47)] ++ recorded found := by
  have hne : url.takeWhile (· ≠ 47) ≠ [58] := by
    intro htake
    rcases url with _ | ⟨d, url⟩
    · cases htake
    · by_cases hd : d = 47
      · subst hd
        cases htake
      · rw [takeWhile_cons_of_ne hd, List.cons.injEq] at htake
        exact hurl (congrArg some htake.1)
  constructor
  · rintro ⟨found, hfound, hresult⟩
    obtain ⟨rest, rfl, -, hrest⟩ := (resolved_wildcard_iff hends).mp hfound
    rw [recorded_cons, if_neg hne] at hresult
    refine ⟨rest, hrest, ?_⟩
    rw [hresult, List.append_assoc]
    rfl
  · rintro ⟨rest, hrest, hresult⟩
    refine ⟨url.takeWhile (· ≠ 47) :: rest, ?_, ?_⟩
    · exact (resolved_wildcard_iff hends).mpr ⟨rest, rfl, fun h => absurd h hurl, hrest⟩
    · rw [hresult, recorded_cons, if_neg hne, List.append_assoc]
      rfl

theorem resolvePattern_literal (c : UInt8) :
    resolvePattern params (c :: pattern) (c :: url) = resolvePattern params pattern url := by
  rw [resolvePattern, if_neg (fun h => List.cons_ne_nil c url h.1), List.head?_cons, if_pos rfl,
    List.tail_cons]

theorem resolvePattern_wildcard (hurl : url.head? ≠ some 58) :
    resolvePattern params (58 :: pattern) url =
      resolvePattern (params ++ [url.takeWhile (· ≠ 47)])
        pattern (url.dropWhile (· ≠ 47)) := by
  have hcolon : (58 : UInt8) ≠ 47 := by decide
  rw [resolvePattern, if_neg (fun h => hcolon h.2.1), if_neg hurl, if_pos rfl]

theorem resolvePattern_end (hc : c ≠ 58) : resolvePattern params (c :: pattern) [] =
    if c = 47 ∧ pattern = [] then (true, params) else (false, params) := by
  rw [resolvePattern, List.head?_nil, if_neg (Option.some_ne_none c).symm, if_neg hc]
  simp

theorem resolvePattern_mismatch (hc : c ≠ 58) {d : UInt8} (hcd : c ≠ d) :
    resolvePattern params (c :: pattern) (d :: url) = (false, params) := by
  have hhead : (d :: url).head? ≠ some c := by
    rw [List.head?_cons, Ne, Option.some.injEq]
    exact hcd.symm
  rw [resolvePattern, if_neg (fun h => List.cons_ne_nil d url h.1), if_neg hhead, if_neg hc]

/-- The recursion of `resolve_pattern`, which tries a literal match first. -/
theorem resolvePattern_iff (hends : WildcardsEnd pattern) :
    resolvePattern params pattern url = (true, result) ↔
      ∃ found, Resolved pattern url found ∧ result = params ++ recorded found := by
  induction pattern generalizing params url with
  | nil =>
      rw [resolvePattern, Prod.mk.injEq]
      constructor
      · rintro ⟨hurl, rfl⟩
        refine ⟨[], ⟨obtained_nil_iff.mpr ⟨rfl, by simpa using hurl⟩, by simp, ?_⟩,
          (List.append_nil _).symm⟩
        rintro ⟨-, hlast⟩
        cases hlast
      · rintro ⟨found, ⟨hobtained, -, -⟩, rfl⟩
        obtain ⟨rfl, hurl⟩ := obtained_nil_iff.mp hobtained
        exact ⟨by simpa using hurl, (List.append_nil _).symm⟩
  | cons c pattern ih =>
      by_cases hc : c = 58
      · subst hc
        by_cases hurl : url.head? = some 58
        · obtain ⟨rest, rfl⟩ := List.head?_eq_some_iff.mp hurl
          rw [resolvePattern_literal, ih hends.tail, resolved_colon_iff hends]
        · rw [resolvePattern_wildcard hurl, ih hends.tail, resolved_text_iff hends hurl]
      · rcases url with _ | ⟨d, url⟩
        · simp only [resolvePattern_end hc, resolved_end_iff hends hc]
          split_ifs with hlast
          · constructor
            · intro heq
              rw [Prod.mk.injEq] at heq
              rw [← heq.2]
              exact ⟨[], ⟨hlast.1, hlast.2, rfl⟩, (List.append_nil _).symm⟩
            · rintro ⟨found, ⟨-, -, rfl⟩, rfl⟩
              rw [recorded, List.filter_nil, List.append_nil]
          · constructor
            · intro heq
              cases heq
            · rintro ⟨found, ⟨hslash, hnil, -⟩, -⟩
              exact absurd ⟨hslash, hnil⟩ hlast
        · simp only [resolved_literal_iff hc d]
          by_cases hcd : c = d
          · subst hcd
            rw [resolvePattern_literal, ih hends.tail]
            simp only [true_and]
          · rw [resolvePattern_mismatch hc hcd]
            constructor
            · intro heq
              cases heq
            · rintro ⟨found, ⟨heq, -⟩, -⟩
              exact absurd heq hcd

end Resolve

section Routed

variable {pattern url : List UInt8} {params : List (List UInt8)}

theorem requestCreate_eq_some_iff (hends : WildcardsEnd pattern) (req : Request) :
    requestCreate pattern url = some req ↔
      ∃ found, Resolved pattern url found ∧ req = ⟨url, recorded found⟩ := by
  constructor
  · intro hreq
    cases hcall : resolvePattern [] pattern url with
    | mk matched result =>
        rw [requestCreate, hcall] at hreq
        cases matched with
        | false => cases hreq
        | true =>
            obtain ⟨found, hfound, rfl⟩ := (resolvePattern_iff hends).mp hcall
            exact ⟨found, hfound, (Option.some.inj hreq).symm⟩
  · rintro ⟨found, hfound, rfl⟩
    have hcall : resolvePattern [] pattern url = (true, recorded found) :=
      (resolvePattern_iff hends).mpr ⟨found, hfound, (List.nil_append _).symm⟩
    rw [requestCreate, hcall]
    rfl

/-- The url is one that the router gets wrong: a parameter begins like a wildcard, or the
slash before the last parameter is missing. -/
def Misleading (pattern url : List UInt8) (params : List (List UInt8)) : Prop :=
  (∃ param ∈ params, param.head? = some 58) ∨ Cut pattern url params

theorem recorded_eq_self (h : ∀ param ∈ params, param ≠ [58]) : recorded params = params := by
  rw [recorded, List.filter_eq_self]
  intro param hparam
  exact decide_eq_true (h param hparam)

theorem ne_colon_of_length (h : (recorded params).length = params.length) :
    ∀ param ∈ params, param ≠ [58] := by
  intro param hparam
  have hkept := List.length_filter_eq_length_iff.mp h param hparam
  exact of_decide_eq_true hkept

theorem routed_iff (hends : WildcardsEnd pattern) (url : List UInt8) :
    Routed pattern url ↔
      ∀ params, Obtained pattern url params → ¬ Misleading pattern url params := by
  constructor
  · rintro hrouted params hobtained
    obtain ⟨req, hreq⟩ :=
      Option.isSome_iff_exists.mp (hrouted.request_iff.mpr ⟨params, hobtained⟩)
    have hcount := hrouted.params_count req hreq
    obtain ⟨found, hfound, rfl⟩ := (requestCreate_eq_some_iff hends req).mp hreq
    obtain rfl := hobtained.unique hends hfound.obtained
    have hne := ne_colon_of_length (hcount.trans hobtained.count.symm)
    rintro (⟨param, hparam, hcolon⟩ | hcut)
    · exact hne param hparam (hfound.short param hparam hcolon)
    · exact hfound.uncut hcut
  · intro hclear
    have hresolved : ∀ params, Obtained pattern url params → Resolved pattern url params := by
      intro params hobtained
      refine ⟨hobtained, ?_, fun hcut => hclear params hobtained (.inr hcut)⟩
      intro param hparam hcolon
      exact absurd (.inl ⟨param, hparam, hcolon⟩) (hclear params hobtained)
    have hfaithful : ∀ req, requestCreate pattern url = some req →
        Obtained pattern url req.params := by
      intro req hreq
      obtain ⟨found, hfound, rfl⟩ := (requestCreate_eq_some_iff hends req).mp hreq
      have hkept : recorded found = found := by
        apply recorded_eq_self
        rintro param hparam rfl
        exact hclear found hfound.obtained (.inl ⟨[58], hparam, rfl⟩)
      rw [hkept]
      exact hfound.obtained
    constructor
    · rw [Option.isSome_iff_exists]
      constructor
      · rintro ⟨req, hreq⟩
        exact ⟨req.params, hfaithful req hreq⟩
      · rintro ⟨params, hobtained⟩
        exact ⟨_,
          (requestCreate_eq_some_iff hends _).mpr ⟨params, hresolved params hobtained, rfl⟩⟩
    · intro req hreq
      exact (hfaithful req hreq).count
    · intro req hreq
      exact (hfaithful req hreq).alike

/-- A handler may read as many parameters as the pattern of its request has wildcards. -/
theorem requestGetParam_ok (hrouted : Routed pattern url) {req : Request}
    (hreq : requestCreate pattern url = some req) {i : Nat} (hi : i < wildcards pattern) :
    Returns (requestGetParam req i) := by
  rw [← hrouted.params_count req hreq] at hi
  rw [requestGetParam, List.getElem?_eq_getElem hi]
  exact returns_ok _

end Routed

section Samples

/-- The pattern `/block/:/`. -/
def blockPattern : List UInt8 :=
  [47, 98, 108, 111, 99, 107, 47, 58, 47]

theorem wildcardsEnd_blockPattern : WildcardsEnd blockPattern := by
  have htails : ∀ tail ∈ blockPattern.tails, tail.head? = some 58 →
      tail.tail = [] ∨ tail.tail.head? = some 47 := by decide
  intro rest hsuffix
  exact htails (58 :: rest) ((List.mem_tails _ _).mpr hsuffix) rfl

theorem routed_iff_block : Routed blockPattern [47, 98, 108, 111, 99, 107, 47, 49] ↔
    ∀ params, Obtained blockPattern [47, 98, 108, 111, 99, 107, 47, 49] params →
      ¬ Misleading blockPattern [47, 98, 108, 111, 99, 107, 47, 49] params :=
  routed_iff wildcardsEnd_blockPattern _

/-- The pattern, sent as a url, gives a request without the parameter that the handler
reads. -/
theorem colon_without_parameter : WildcardsEnd blockPattern ∧
    requestCreate blockPattern blockPattern = some ⟨blockPattern, []⟩ ∧
    requestGetParam ⟨blockPattern, []⟩ 0 = .error .assertion ∧
    ¬ Routed blockPattern blockPattern := by
  have hcreate : requestCreate blockPattern blockPattern = some ⟨blockPattern, []⟩ := by
    decide +kernel
  refine ⟨wildcardsEnd_blockPattern, hcreate, rfl, ?_⟩
  intro hrouted
  exact absurd (hrouted.params_count _ hcreate) (by decide +kernel)

end Samples

end Whosecoin.Routing
