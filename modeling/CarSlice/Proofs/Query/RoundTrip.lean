import CarSlice.Proofs.Query.Grammar

/-!
# Ranges read back

The text of a range is read back from every query that it is put into as the first range parameter,
under either key and with any of its characters percent-encoded (`parseRange_undoes_toText`).  The
offsets must fit a word.

Three things are needed: the text has the form of a range (`spellsRange_toText`), no encoding of it
holds an ampersand (`Encodes.not_mem_ampersand`), and the query comes apart into the parameters that
it was put together from (`hasParameters_joined`, `hasParameters_marked`).
-/

namespace CarSlice.Query

/-! ## Texts of ranges -/

/-- The text of a range whose offsets fit a word has the form of a range. -/
theorem spellsRange_toText {range : ByteRange} (hstart : range.start < 2 ^ 64)
    (hstop : ∀ stop ∈ range.stop, stop < 2 ^ 64) :
    SpellsRange range.toText range.start range.stop := by
  obtain ⟨start, stop, hordered⟩ := range
  have hcut (last : Text) :
      Cut (ascii ':') (decimal start ++ ascii ':' :: last) (decimal start) (some last) :=
    .parted ((isNumeral_decimal start).not_mem (by decide)) last
  cases stop with
  | none => exact .openEnded (hcut _) ⟨isNumeral_decimal start, hstart⟩
  | some stop =>
    exact .bounded (hcut _) ⟨isNumeral_decimal start, hstart⟩
      ⟨isNumeral_decimal stop, hstop stop rfl⟩

theorem toText_not_mem_ampersand (range : ByteRange) : ascii '&' ∉ range.toText := by
  have hdecimal (n : Nat) : ascii '&' ∉ decimal n := (isNumeral_decimal n).not_mem (by decide)
  rw [ByteRange.toText, rangeText, List.mem_append, List.mem_cons]
  rintro (hmem | hmem | hmem)
  · exact hdecimal _ hmem
  · exact absurd hmem (by decide)
  · cases hstop : range.stop with
    | none =>
      rw [hstop] at hmem
      exact absurd hmem (by decide)
    | some stop =>
      rw [hstop] at hmem
      exact hdecimal stop hmem

theorem not_isHex_ampersand (n : Nat) : ¬IsHex (ascii '&') n := by
  rw [← hexValue?_eq_some_iff, show hexValue? (ascii '&') = none by decide]
  exact nofun

/-- No encoding of a text holds an ampersand that is not in the text. -/
theorem Encodes.not_mem_ampersand {s encoded : Text} (h : Encodes s encoded)
    (hs : ascii '&' ∉ s) : ascii '&' ∉ encoded := by
  induction h with
  | nil => exact hs
  | plain hb h ih =>
    rw [List.mem_cons, not_or] at hs ⊢
    exact ⟨hs.1, ih hs.2⟩
  | escaped hhigh hlow h ih =>
    rw [List.mem_cons, not_or] at hs
    simp only [List.mem_cons, not_or]
    refine ⟨by decide, ?_, ?_, ih hs.2⟩
    · rintro rfl
      exact not_isHex_ampersand _ hhigh
    · rintro rfl
      exact not_isHex_ampersand _ hlow

/-! ## Queries from their parameters -/

section

variable {key : Text} (hkey : IsRangeKey key)

include hkey

theorem asksRange_of_key (value : Text) : AsksRange (key ++ ascii '=' :: value) (some value) := by
  refine ⟨key, hkey, .parted ?_ value⟩
  rcases hkey with rfl | rfl <;> decide

theorem not_mem_ampersand_of_key {value : Text} (hvalue : ascii '&' ∉ value) :
    ascii '&' ∉ key ++ ascii '=' :: value := by
  rw [List.mem_append, List.mem_cons, not_or, not_or]
  refine ⟨?_, by decide, hvalue⟩
  rcases hkey with rfl | rfl <;> decide

theorem head?_ne_mark_of_key (rest : Text) : (key ++ rest).head? ≠ some (ascii '?') := by
  rw [List.head?_append]
  rcases hkey with rfl | rfl
  · exact fun h => absurd (Option.some.inj h) (by decide)
  · exact fun h => absurd (Option.some.inj h) (by decide)

end

/-- A row of parameters begins with a question mark only if the first of them does. -/
theorem head?_joined_ne_mark {first : Text} (h : first.head? ≠ some (ascii '?'))
    (rest : List Text) : (joined (first :: rest)).head? ≠ some (ascii '?') := by
  by_cases hnil : first = []
  · subst hnil
    cases rest with
    | nil => simp [joined]
    | cons next rest =>
      rw [joined_cons_cons, List.nil_append, List.head?_cons]
      decide
  · rwa [head?_joined hnil]

section

variable {ps : List Text} (hne : ps ≠ []) (hclean : ∀ p ∈ ps, ascii '&' ∉ p)

include hne hclean

theorem hasParameters_joined (hfirst : ∀ p ∈ ps.head?, p.head? ≠ some (ascii '?')) :
    HasParameters (joined ps) ps := by
  refine ⟨hne, hclean, if_neg ?_⟩
  obtain ⟨first, rest, rfl⟩ := List.exists_cons_of_ne_nil hne
  exact head?_joined_ne_mark (hfirst first rfl) rest

theorem hasParameters_marked : HasParameters (ascii '?' :: joined ps) ps :=
  ⟨hne, hclean, if_pos rfl⟩

end

/-! ## Reading back -/

/-- The text of a range, with any of its characters percent-encoded, is read back from a query in
which no range parameter stands before it. -/
theorem parseRange_undoes_toText {range : ByteRange} (hstart : range.start < 2 ^ 64)
    (hstop : ∀ stop ∈ range.stop, stop < 2 ^ 64) {key encoded : Text}
    (hkey : IsRangeKey key) (hencoded : Encodes range.toText encoded) {front back : List Text}
    (hfront : ∀ p ∈ front, ascii '&' ∉ p ∧ ∀ value, ¬AsksRange p value)
    (hback : ∀ p ∈ back, ascii '&' ∉ p)
    (hmark : ∀ p ∈ front.head?, p.head? ≠ some (ascii '?')) :
    let query := joined (front ++ (key ++ ascii '=' :: encoded) :: back)
    parseRange query = .ok (some range) ∧ parseRange (ascii '?' :: query) = .ok (some range) := by
  have hnames : ParameterNames (key ++ ascii '=' :: encoded) (some encoded) (.ok range) :=
    .decoded hencoded (.range range (spellsRange_toText hstart hstop))
  have hasks : Asks (front ++ (key ++ ascii '=' :: encoded) :: back) (.ok (some range)) :=
    .first (fun p hp => (hfront p hp).2) (asksRange_of_key hkey encoded) hnames
  have hne : front ++ (key ++ ascii '=' :: encoded) :: back ≠ [] := by simp
  have hclean : ∀ p ∈ front ++ (key ++ ascii '=' :: encoded) :: back, ascii '&' ∉ p := by
    rw [List.forall_mem_append, List.forall_mem_cons]
    have hplain := hencoded.not_mem_ampersand (toText_not_mem_ampersand range)
    exact ⟨fun p hp => (hfront p hp).1, not_mem_ampersand_of_key hkey hplain, hback⟩
  have hfirst : ∀ p ∈ (front ++ (key ++ ascii '=' :: encoded) :: back).head?,
      p.head? ≠ some (ascii '?') := by
    cases front with
    | nil =>
      rintro p ⟨⟩
      exact head?_ne_mark_of_key hkey _
    | cons first front => exact hmark
  exact ⟨(parseRange_eq_iff (hasParameters_joined hne hclean hfirst)).2 hasks,
    (parseRange_eq_iff (hasParameters_marked hne hclean)).2 hasks⟩

/-- A range with its first character encoded, behind another parameter and before a range parameter
that is in no order. -/
theorem parseRange_undoes_toText_escaped :
    Encodes (utf8 "1:5") (utf8 "%31:5") ∧
      parseRange (utf8 "a=1&entity-bytes=%31:5&bytes=9:2") = .ok (some ⟨1, some 5, by simp⟩) ∧
      parseRange (utf8 "?a=1&entity-bytes=%31:5&bytes=9:2") = .ok (some ⟨1, some 5, by simp⟩) := by
  have hencoded : Encodes (utf8 "1:5") (utf8 "%31:5") :=
    .escaped (m := 3) (n := 1) (by decide) (by decide)
      (.plain (by decide) (.plain (by decide) .nil))
  have htext : Encodes (ByteRange.toText ⟨1, some 5, by simp⟩) (utf8 "%31:5") := by
    have hdigit (n : Nat) (h : n < 10) : decimal n = [decimalDigit n] := by rw [decimal, if_pos h]
    simp only [ByteRange.toText, rangeText, Option.map_some, Option.getD_some]
    rw [hdigit 1 (by decide), hdigit 5 (by decide)]
    exact hencoded
  have hkey : IsRangeKey (utf8 "entity-bytes") := .inr rfl
  have hfront : ∀ p ∈ [utf8 "a=1"], ascii '&' ∉ p ∧ ∀ value, ¬AsksRange p value := by
    rw [List.forall_mem_singleton]
    exact ⟨by decide, isRange_eq_false_iff.1 (by decide)⟩
  have hback : ∀ p ∈ [utf8 "bytes=9:2"], ascii '&' ∉ p := by decide
  refine ⟨hencoded, ?_⟩
  have hread := parseRange_undoes_toText (by decide) (by simp) hkey htext hfront hback (by decide)
  exact hread

end CarSlice.Query
