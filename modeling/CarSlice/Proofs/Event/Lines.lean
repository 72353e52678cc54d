import CarSlice.Event.Log
import CarSlice.Event.Timestamp
import CarSlice.Proofs.Event.Objects
import CarSlice.Proofs.Numerals

/-!
# The length of log lines

A line that is too long is replaced by a notice.  The notice keeps the identifier of the event and
is not measured again, so the line of an event may be longer than the limit after all.

* `Json.length_memberText` is the length of a member of an object, and `Timestamp.length_toText`
  that of a timestamp, which needs no escapes (`Timestamp.escape_toText`).
* `Event.length_toJson` is the length of the JSON of an event, and `Event.length_notice` that of a
  notice.
* `Event.capped_logLine_iff` says when the line of an event is within the limit.  It never is if the
  identifier fills the line (`Event.lt_length_logLine`).
* `Logger.capped_writeLine_iff` says that the lines a logger adds of its own are short.  So the
  lines for an event are within the limit exactly if the line of the event is
  (`Logger.capped_log_iff`).
-/

namespace CarSlice

/-! ## Objects -/

namespace Json

@[simp] theorem length_quote (s : Text) : (quote s).length = (escape s).length + 2 := by
  simp [quote]

@[simp] theorem length_memberText (m : Text × Scalar) :
    (memberText m).length = (escape m.1).length + m.2.written.length + 3 := by
  simp [memberText, member]
  omega

theorem length_objectText (first : Text × Scalar) (rest : List (Text × Scalar)) :
    (objectText (first :: rest)).length =
      ((first :: rest).map fun m => (memberText m).length + 1).sum + 1 := by
  have hrest : (rest.flatMap fun m => ascii ',' :: memberText m).length =
      (rest.map fun m => (memberText m).length + 1).sum := by
    rw [List.length_flatMap]
    rfl
  rw [objectText, List.map_cons, intercalate_cons, List.flatMap_map, List.cons_append,
    List.length_cons, List.length_append, List.length_append, hrest, List.map_cons, List.sum_cons,
    List.length_singleton]
  omega

theorem escape_cons (b : UInt8) (s : Text) : escape (b :: s) = escapeByte b ++ escape s :=
  List.flatMap_cons

theorem escape_append (s t : Text) : escape (s ++ t) = escape s ++ escape t :=
  List.flatMap_append

theorem escape_eq_self {s : Text} (h : ∀ b ∈ s, escapeByte b = [b]) : escape s = s := by
  induction s with
  | nil => rfl
  | cons b s ih =>
    obtain ⟨hb, hs⟩ := List.forall_mem_cons.1 h
    rw [escape_cons, hb, ih hs, List.singleton_append]

end Json

/-! ## Timestamps -/

namespace Timestamp

theorem length_padded {width n : Nat} (hwidth : 0 < width) (h : n < 10 ^ width) :
    (padded width n).length = width := by
  have := length_decimal_le hwidth h
  rw [padded, List.length_append, List.length_replicate]
  omega

/-- An era has about 400 years, of which none has more than 470 days.  The bounds are rough. -/
theorem yearOfEra_le {day : Nat} (h : day < 146097) :
    let year := (day - day / 1460 + day / 36524 - day / 146096) / 365
    year ≤ 400 ∧ day - (365 * year + year / 4 - year / 100) ≤ 470 := by
  intro year
  have hyear : year ≤ 400 := by omega
  have hday : day ≤ 365 * year + 470 := by omega
  clear_value year
  omega

theorem month_le {day : Nat} (h : day ≤ 470) :
    let fromMarch := (5 * day + 2) / 153
    (if fromMarch < 10 then fromMarch + 3 else fromMarch - 9) < 100 ∧
      day - (153 * fromMarch + 2) / 5 + 1 < 100 := by
  intro fromMarch
  have hfromMarch : fromMarch ≤ 15 := by omega
  exact ⟨by split <;> omega, by omega⟩

/-- The year has four digits for some thousand years, the month and the day two. -/
theorem day_ofNumber_lt {days : Nat} (h : days < 1048576) :
    (Day.ofNumber days).year < 10000 ∧ (Day.ofNumber days).month < 100 ∧
      (Day.ofNumber days).day < 100 := by
  have hera : (days + 719468) / 146097 ≤ 12 := by omega
  obtain ⟨hyear, hdayOfYear⟩ := yearOfEra_le (Nat.mod_lt (days + 719468) (by decide : 0 < 146097))
  obtain ⟨hmonth, hday⟩ := month_le hdayOfYear
  have hnextYear : ∀ month : Nat, (if month ≤ 2 then 1 else 0) ≤ 1 := by
    intro month
    split <;> omega
  refine ⟨?_, hmonth, hday⟩
  calc (Day.ofNumber days).year ≤ 400 + 400 * 12 + 1 :=
        Nat.add_le_add (Nat.add_le_add hyear (Nat.mul_le_mul_left 400 hera)) (hnextYear _)
    _ < 10000 := by decide

/-- What a clock can show that counts nanoseconds since 1970 in a signed 64-bit word. -/
def IsReading (micros : Nat) : Prop :=
  1000 * micros < 2 ^ 63

instance (micros : Nat) : Decidable (IsReading micros) :=
  inferInstanceAs (Decidable (_ < _))

/-- All timestamps are of one length. -/
theorem length_toText {micros : Nat} (h : IsReading micros) : (toText micros).length = 27 := by
  have hparts : ∀ year month day hour minute second fraction : Text,
      (year ++ ascii '-' :: month ++ ascii '-' :: day ++ ascii 'T' :: hour ++ ascii ':' :: minute ++
        ascii ':' :: second ++ ascii '.' :: fraction ++ [ascii 'Z']).length =
      year.length + month.length + day.length + hour.length + minute.length + second.length +
        fraction.length + 7 := by
    intro year month day hour minute second fraction
    simp only [List.length_append, List.length_cons, List.length_nil]
    omega
  have htwo : ∀ n < 100, (padded 2 n).length = 2 :=
    fun _ hn => length_padded (by decide) (by omega)
  have hdays : micros / 1000000 / 86400 < 1048576 := by
    rw [IsReading] at h
    omega
  obtain ⟨hyear, hmonth, hday⟩ := day_ofNumber_lt hdays
  rw [toText, hparts, length_padded (by decide) (by omega : _ < 10 ^ 4), htwo _ hmonth, htwo _ hday,
    htwo _ (by omega), htwo _ (by omega), htwo _ (by omega),
    length_padded (by decide) (by omega : _ < 10 ^ 6)]

theorem escapeByte_digit {b : UInt8} (h : 48 ≤ b ∧ b ≤ 57) : Json.escapeByte b = [b] := by
  have hall : ∀ b, 48 ≤ b ∧ b ≤ 57 → Json.escapeByte b = [b] :=
    Json.forall_byte (by decide +kernel)
  exact hall b h

/-- A timestamp needs no escapes. -/
theorem escape_toText (micros : Nat) : Json.escape (toText micros) = toText micros := by
  have hpadded : ∀ width n, Json.escape (padded width n) = padded width n := by
    intro width n
    refine Json.escape_eq_self fun b hb => escapeByte_digit ?_
    rcases List.mem_append.1 hb with hzero | hdigit
    · obtain rfl := List.eq_of_mem_replicate hzero
      decide
    · exact (isNumeral_decimal n).digit b hdigit
  simp only [toText, Json.escape_append, Json.escape_cons, hpadded]
  rfl

end Timestamp

/-! ## Notices -/

/-- The text of a line. -/
def LogLine.text : LogLine → Text
  | .console line => line
  | .file line => line

namespace Event

theorem escape_name (e : Event) :
    Json.escape e.severity.name = e.severity.name ∧
      Json.escape e.category.name = e.category.name := by
  constructor
  · cases e.severity <;> rfl
  · cases e.category <;> rfl

theorem sum_pairUnlessEmpty (key : String) (s : Text) :
    ((pairUnlessEmpty key s).map fun m => (Json.memberText m).length + 1).sum =
      if s = [] then 0 else (Json.escape (utf8 key)).length + (Json.escape s).length + 6 := by
  unfold pairUnlessEmpty
  split
  · rfl
  · simp [Json.Scalar.written]
    omega

theorem length_toJson (e : Event) (timestamp : Text) :
    (e.toJson timestamp).length =
      (Json.escape timestamp).length + e.severity.name.length + e.category.name.length +
        (if e.id = [] then 0 else (Json.escape e.id).length + 14) +
        (if e.message = [] then 0 else (Json.escape e.message).length + 13) +
        (e.fields.map fun f => (Json.escape f.key).length + f.disclosed.written.length + 4).sum +
        37 := by
  have hkeys : (Json.escape (utf8 "ts")).length = 2 ∧ (Json.escape (utf8 "severity")).length = 8 ∧
      (Json.escape (utf8 "category")).length = 8 ∧ (Json.escape (utf8 "event_id")).length = 8 ∧
      (Json.escape (utf8 "message")).length = 7 := by
    decide
  have hfield : ∀ f : EventField, (Json.memberText (f.key, f.disclosed)).length + 1 =
      (Json.escape f.key).length + f.disclosed.written.length + 4 :=
    fun f => congrArg (· + 1) (Json.length_memberText _)
  rw [toJson_eq_objectText, pairs, Json.length_objectText]
  simp only [List.map_cons, List.map_append, List.map_map, List.sum_cons, List.sum_append,
    sum_pairUnlessEmpty, Function.comp_def, hfield]
  simp only [Json.length_memberText, Json.Scalar.written, Json.length_quote, e.escape_name, hkeys]
  split_ifs <;> omega

/-- The length of the notice that the line of an event would be so long. -/
def noticeLength (e : Event) (later : Text) (length : Nat) : Nat :=
  (Json.escape later).length + e.severity.name.length + e.category.name.length +
    (if e.id = [] then 0 else (Json.escape e.id).length + 14) + (decimal length).length + 83

theorem length_notice (e : Event) (later : Text) (length : Nat) :
    ((e.truncated length).toJson later).length = e.noticeLength later length := by
  have htexts : (Json.escape (utf8 "event truncated")).length = 15 ∧
      (Json.escape (utf8 "original_bytes")).length = 14 := by
    decide
  have hmessage : utf8 "event truncated" ≠ [] := by decide
  rw [length_toJson, noticeLength]
  by_cases hid : e.id = [] <;>
    simp [truncated, EventField.number, EventField.disclosed, Json.Scalar.written, htexts, hmessage,
      hid] <;>
    omega

/-- The line of an event is within the limit if its JSON is, or the notice that stands for it. -/
theorem capped_logLine_iff (e : Event) (timestamp later : Text) :
    (e.logLine timestamp later).length ≤ maxLogLine ↔
      (e.toJson timestamp).length ≤ maxLogLine ∨
        e.noticeLength later (e.toJson timestamp).length ≤ maxLogLine := by
  simp only [logLine]
  split_ifs with hlong
  · rw [length_notice, or_iff_right (Nat.not_le.2 hlong)]
  · rw [or_iff_left_of_imp fun _ => Nat.not_lt.1 hlong]

/-- An identifier that fills a line makes every line too long that it is on. -/
theorem lt_length_logLine {e : Event} (h : maxLogLine ≤ (Json.escape e.id).length)
    (timestamp later : Text) : maxLogLine < (e.logLine timestamp later).length := by
  have hne : e.id ≠ [] := by
    intro hid
    rw [hid] at h
    exact absurd h (by decide)
  rw [← Nat.not_le, capped_logLine_iff, length_toJson, noticeLength, if_neg hne]
  omega

end Event

/-! ## The log -/

namespace Logger

theorem capped_writeLine_iff (l : Logger) (line : Text) :
    (∀ written ∈ (l.writeLine line).1, written.text.length ≤ maxLogLine) ↔
      line.length ≤ maxLogLine := by
  have hcomplaint : (LogLine.console complaint).text.length ≤ maxLogLine := by decide
  unfold writeLine
  split
  · exact List.forall_mem_singleton
  · split_ifs
    · exact List.forall_mem_singleton
    · exact List.forall_mem_singleton
    · rw [List.forall_mem_cons, and_iff_right hcomplaint]
      exact List.forall_mem_singleton

/-- The lines for an event are within the limit exactly if there are none, if its JSON is within the
limit, or if the notice is that stands for it. -/
theorem capped_log_iff (l : Logger) (timestamp later : Text) (e : Event) :
    (∀ line ∈ (l.log timestamp later e).1, line.text.length ≤ maxLogLine) ↔
      e.severity.rank < l.threshold.rank ∨ (e.toJson timestamp).length ≤ maxLogLine ∨
        e.noticeLength later (e.toJson timestamp).length ≤ maxLogLine := by
  rw [← e.capped_logLine_iff]
  unfold log
  split_ifs with hquiet
  · exact iff_of_true (List.forall_mem_nil _) (.inl hquiet)
  · rw [capped_writeLine_iff, or_iff_right hquiet]

/-- An event whose identifier fills a line by itself. -/
theorem long_identifier_passes_limit :
    ¬∀ line ∈ (({} : Logger).log (Timestamp.toText 0) (Timestamp.toText 0)
        { id := List.replicate 16384 (ascii 'a') }).1, line.text.length ≤ maxLogLine := by
  have hescaped : (Json.escape (List.replicate 16384 (ascii 'a'))).length = maxLogLine := by
    rw [Json.escape_eq_self, List.length_replicate, maxLogLine]
    intro b hb
    rw [List.eq_of_mem_replicate hb]
    rfl
  generalize List.replicate 16384 (ascii 'a') = id at hescaped
  rw [log, if_neg (Nat.lt_irrefl _), capped_writeLine_iff]
  exact Nat.not_le.2 (Event.lt_length_logLine hescaped.ge _ _)

end Logger

end CarSlice
