import CarSlice.Query
import Mathlib.Data.List.TakeWhile

/-!
# What is left of a query

`withoutRange` is made to leave a query that asks for no range, and a query that it leaves is
taken to be stable.  Both hold as long as the result is split up in the same way as the query was.
The exception is a query that begins with an ampersand and then a question mark: the ampersand
is dropped, and the question mark behind it, which was part of a parameter, is read as the mark
that begins a query.

* `splitOn_joined` and `not_mem_of_mem_splitOn` relate a text and its parts in both directions.
* `Exposes` is the exception, and `withoutRange_cases` lists how a result is read again.
* `withoutRange_settled_iff` says exactly when a result asks for no range and when it is
  stable.
-/

namespace CarSlice

/-! ## Parts of a text -/

/-- The parts of a text are those that the library's function gives. -/
theorem splitOn_eq (separator : UInt8) (s : Text) : splitOn separator s = s.splitOn separator := by
  fun_induction splitOn separator s with
  | case1 s part hrest =>
    have hmem : separator ∉ s := by
      intro hmem
      simpa using List.dropWhile_eq_nil_iff.1 hrest separator hmem
    have hpart : part = s := by
      have happend := s.takeWhile_append_dropWhile (p := (· != separator))
      rwa [hrest, List.append_nil] at happend
    rw [List.splitOn_eq_singleton hmem, hpart]
  | case2 s part next rest hrest ih =>
    have hnext : next = separator := by
      have hhead := List.head_dropWhile_not (· != separator) (l := s) (by simp [hrest])
      simpa [hrest] using hhead
    have hmem : separator ∉ part := fun hmem => by
      simpa using List.mem_takeWhile_imp hmem
    have hs : s = part ++ separator :: rest := by
      rw [← hnext, ← hrest]
      exact List.takeWhile_append_dropWhile.symm
    rw [hs, List.splitOn_append_cons_self_of_not_mem hmem, ih]

/-- No part of a text holds the separator. -/
theorem not_mem_of_mem_splitOn {separator : UInt8} {s part : Text}
    (h : part ∈ splitOn separator s) : separator ∉ part := by
  fun_induction splitOn separator s with
  | case1 s first hrest =>
    obtain rfl := List.mem_singleton.1 h
    exact fun hmem => by simpa using List.mem_takeWhile_imp hmem
  | case2 s first next rest hrest ih =>
    rcases List.mem_cons.1 h with rfl | h
    · exact fun hmem => by simpa using List.mem_takeWhile_imp hmem
    · exact ih h

namespace Query

/-! ## Parameters that stay -/

/-- The parameters put together again. -/
def joined (parts : List Text) : Text :=
  [ascii '&'].intercalate parts

theorem splitOn_joined {parts : List Text} (hne : parts ≠ [])
    (hparts : ∀ part ∈ parts, ascii '&' ∉ part) : splitOn (ascii '&') (joined parts) = parts := by
  rw [splitOn_eq]
  exact List.splitOn_intercalate _ hparts hne

theorem joined_cons_cons (part next : Text) (parts : List Text) :
    joined (part :: next :: parts) = part ++ ascii '&' :: joined (next :: parts) := by
  simp [joined, List.intercalate_cons_cons]

/-- The parameters are put together to a text that begins as the first of them does. -/
theorem head?_joined {part : Text} (hne : part ≠ []) (parts : List Text) :
    (joined (part :: parts)).head? = part.head? := by
  cases part with
  | nil => exact absurd rfl hne
  | cons b part =>
    cases parts with
    | nil => simp [joined]
    | cons next parts => simp [joined_cons_cons]

theorem joined_ne_nil {part : Text} (hne : part ≠ []) (parts : List Text) :
    joined (part :: parts) ≠ [] := by
  intro hnil
  have hhead := head?_joined hne parts
  rw [hnil, List.head?_nil] at hhead
  exact hne (List.head?_eq_none_iff.1 hhead.symm)

/-- One more parameter makes the text longer, unless there was none before. -/
theorem length_joined_lt (part : Text) {parts : List Text} (hne : parts ≠ []) :
    (joined parts).length < (joined (part :: parts)).length := by
  cases parts with
  | nil => exact absurd rfl hne
  | cons next parts =>
    rw [joined_cons_cons, List.length_append, List.length_cons]
    omega

theorem isRange_nil : isRange [] = false := by
  decide

/-- A parameter that stays is not empty and asks for no range. -/
def stays (parameter : Text) : Bool :=
  !parameter.isEmpty && !isRange parameter

theorem stays_iff {parameter : Text} :
    stays parameter = true ↔ parameter ≠ [] ∧ isRange parameter = false := by
  simp [stays]

/-- The parameters of a query that stay. -/
def kept (query : Text) : List Text :=
  (parameters query).filter stays

theorem withoutRange_eq (query : Text) :
    withoutRange query =
      if hasMark query && !(joined (kept query)).isEmpty then ascii '?' :: joined (kept query)
      else joined (kept query) := rfl

theorem stays_of_mem_kept {query p : Text} (h : p ∈ kept query) : stays p = true :=
  (List.mem_filter.1 h).2

theorem not_mem_of_mem_kept {query p : Text} (h : p ∈ kept query) : ascii '&' ∉ p :=
  not_mem_of_mem_splitOn (List.mem_filter.1 h).1

theorem parseRange_eq_none_iff {query : Text} :
    parseRange query = .ok none ↔ ∀ p ∈ parameters query, isRange p = false := by
  unfold parseRange
  cases hfind : (parameters query).find? isRange with
  | none => simpa using hfind
  | some p =>
    have hrange := List.find?_some hfind
    have hmem := List.mem_of_find?_eq_some hfind
    constructor
    · intro h
      cases hp : rangeOfParameter p <;> simp [hp, Except.map] at h
    · intro h
      simp [h p hmem] at hrange

/-! ## A result read again -/

/-- The query has no mark, and its first parameter that stays is this one behind a question
mark. -/
def Exposes (query p : Text) : Prop :=
  hasMark query = false ∧ (kept query).head? = some (ascii '?' :: p)

/-- What is left is nothing, or it is read as the parameters that stay with the mark of the query,
or its first parameter loses a question mark. -/
theorem withoutRange_cases (query : Text) :
    (kept query = [] ∧ withoutRange query = []) ∨
      ((∀ p, ¬ Exposes query p) ∧ kept query ≠ [] ∧
        hasMark (withoutRange query) = hasMark query ∧
        parameters (withoutRange query) = kept query) ∨
      ∃ p rest, Exposes query p ∧ kept query = (ascii '?' :: p) :: rest ∧
        withoutRange query = ascii '?' :: joined (p :: rest) ∧
        parameters (withoutRange query) = p :: rest := by
  rw [withoutRange_eq]
  have hparts : ∀ p ∈ kept query, ascii '&' ∉ p := fun p => not_mem_of_mem_kept
  cases hkept : kept query with
  | nil => exact Or.inl ⟨rfl, by simp [joined]⟩
  | cons first rest =>
    rw [hkept] at hparts
    have hfirst : first ≠ [] :=
      (stays_iff.1 (@stays_of_mem_kept query first (by simp [hkept]))).1
    have hhead := head?_joined hfirst rest
    have hsome : (joined (first :: rest)).isEmpty = false := by
      simpa using joined_ne_nil hfirst rest
    refine Or.inr ?_
    cases hmark : hasMark query with
    | true =>
      -- The mark is put before the parameters, and behind it nothing changes.
      refine Or.inl ⟨fun p hp => ?_, by simp, by simp [hsome, hasMark], ?_⟩
      · simp [Exposes, hmark] at hp
      · simp [hsome, parameters, hasMark, splitOn_joined _ hparts]
    | false =>
      simp only [Bool.false_and, Bool.false_eq_true, if_false]
      by_cases hexposed : first.head? = some (ascii '?')
      · obtain ⟨p, rfl⟩ := List.head?_eq_some_iff.1 hexposed
        have hjoined : joined ((ascii '?' :: p) :: rest) = ascii '?' :: joined (p :: rest) := by
          cases rest with
          | nil => simp [joined]
          | cons next rest => simp [joined_cons_cons]
        have hparts' : ∀ part ∈ p :: rest, ascii '&' ∉ part := by
          simp only [List.mem_cons, forall_eq_or_imp, not_or] at hparts ⊢
          exact ⟨hparts.1.2, hparts.2⟩
        refine Or.inr ⟨p, rest, ⟨hmark, by rw [hkept]; rfl⟩, rfl, hjoined, ?_⟩
        rw [hjoined]
        simp [parameters, hasMark, splitOn_joined _ hparts']
      · have hnone : hasMark (joined (first :: rest)) = false := by
          simpa [hasMark, hhead] using hexposed
        refine Or.inl ⟨?_, by simp, hnone, ?_⟩
        · rintro p ⟨-, hp⟩
          rw [hkept, List.head?_cons, Option.some.injEq] at hp
          exact hexposed (by rw [hp]; rfl)
        · simp [parameters, hnone, splitOn_joined _ hparts]

/-- Nothing is taken out of a result that was read as the parameters that stay. -/
theorem withoutRange_idem_of_reread {query : Text}
    (hmark : hasMark (withoutRange query) = hasMark query)
    (hparameters : parameters (withoutRange query) = kept query) :
    withoutRange (withoutRange query) = withoutRange query := by
  have hkept : kept (withoutRange query) = kept query := by
    rw [kept, hparameters, List.filter_eq_self]
    exact fun p => stays_of_mem_kept
  rw [withoutRange_eq (withoutRange query), hmark, hkept, ← withoutRange_eq]

/-- A result that exposes a parameter is stable exactly if that parameter stays too.  If it does not
stay, it is missing the next time. -/
theorem withoutRange_idem_of_exposes {query p : Text} {rest : List Text}
    (hkept : kept query = (ascii '?' :: p) :: rest)
    (hresult : withoutRange query = ascii '?' :: joined (p :: rest))
    (hparameters : parameters (withoutRange query) = p :: rest) :
    withoutRange (withoutRange query) = withoutRange query ↔ stays p = true := by
  have hrest : rest.filter stays = rest := by
    rw [List.filter_eq_self]
    exact fun q hq => @stays_of_mem_kept query q (by simp [hkept, hq])
  have hmark : hasMark (withoutRange query) = true := by
    simp [hresult, hasMark]
  rw [withoutRange_eq (withoutRange query), hmark, kept, hparameters, hresult]
  cases hstays : stays p with
  | true =>
    have hsome := joined_ne_nil (stays_iff.1 hstays).1 rest
    simp [hstays, hrest, hsome]
  | false =>
    simp only [List.filter_cons, hstays, Bool.false_eq_true, if_false, hrest, iff_false]
    by_cases hnil : rest = []
    · simp [hnil, joined]
    · intro heq
      have hlength := length_joined_lt p hnil
      split_ifs at heq
      · rw [(List.cons.inj heq).2] at hlength
        omega
      · rw [heq, List.length_cons] at hlength
        omega

/-- What is left of a query asks for no range exactly if a parameter that the result exposes asks
for none, and nothing more is taken out of it exactly if such a parameter also is not empty. -/
theorem withoutRange_settled_iff (query : Text) :
    (parseRange (withoutRange query) = .ok none ↔ ∀ p, Exposes query p → isRange p = false) ∧
      (withoutRange (withoutRange query) = withoutRange query ↔
        ∀ p, Exposes query p → p ≠ [] ∧ isRange p = false) := by
  rw [parseRange_eq_none_iff]
  obtain ⟨hkept, hnil⟩ | ⟨hexposes, -, hmark, hparameters⟩ |
    ⟨p, rest, hexposes, hkept, hresult, hparameters⟩ := withoutRange_cases query
  · have hnone : ∀ p, ¬ Exposes query p := fun p hp => by
      simp [Exposes, hkept] at hp
    have hempty : parameters [] = [[]] := by
      simp [parameters, hasMark, splitOn_eq]
    rw [hnil, hempty]
    refine ⟨iff_of_true ?_ fun p hp => absurd hp (hnone p),
      iff_of_true ?_ fun p hp => absurd hp (hnone p)⟩
    · simpa using isRange_nil
    · rw [withoutRange_eq, kept, hempty]
      rfl
  · have hrange : ∀ p ∈ parameters (withoutRange query), isRange p = false := by
      rw [hparameters]
      exact fun p hp => (stays_iff.1 (stays_of_mem_kept hp)).2
    exact ⟨iff_of_true hrange fun p hp => absurd hp (hexposes p),
      iff_of_true (withoutRange_idem_of_reread hmark hparameters) fun p hp =>
        absurd hp (hexposes p)⟩
  · have hunique : ∀ q, Exposes query q ↔ q = p := by
      intro q
      constructor
      · rintro ⟨-, hq⟩
        simpa [hkept, eq_comm] using hq
      · rintro rfl
        exact hexposes
    have hrest : ∀ q ∈ rest, isRange q = false := fun q hq =>
      (stays_iff.1 (@stays_of_mem_kept query q (by simp [hkept, hq]))).2
    constructor
    · rw [hparameters]
      simp only [hunique, List.mem_cons, forall_eq_or_imp, forall_eq]
      exact and_iff_left hrest
    · rw [withoutRange_idem_of_exposes hkept hresult hparameters, stays_iff]
      simp only [hunique, forall_eq]

/-- Taken out of `&?bytes=0:1`, the range is still there, and goes away the second time. -/
theorem withoutRange_exposes_range :
    ∃ range, parseRange (withoutRange (utf8 "&?bytes=0:1")) = .ok (some range) ∧
      withoutRange (withoutRange (utf8 "&?bytes=0:1")) ≠ withoutRange (utf8 "&?bytes=0:1") := by
  simp only [parseRange, withoutRange, parameters, splitOn_eq]
  refine ⟨⟨0, some 1, by simp⟩, ?_, ?_⟩
  · rfl
  · decide

end Query

end CarSlice
