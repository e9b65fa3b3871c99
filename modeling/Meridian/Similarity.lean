import Meridian.ContentCheck
import Meridian.Lib.EditDistance

/-! How alike two texts are. The table of `levenshtein` is filled row by row; the entry in a row
and a column is the distance of the beginnings of the texts up to there, and the last entry that
of the texts. -/
namespace Meridian

open EditDistance

section Table

/-- The row of the table for a beginning of the first text, from a beginning of the second on; the
beginnings are read backwards, as the recursion looks at their last characters. -/
def tableRow (before : JsString) : JsString → JsString → List ℕ
  | passed, [] => [editDistance before passed]
  | passed, d :: b => editDistance before passed :: tableRow before (d :: passed) b

theorem tableRow_eq_cons (before passed b : JsString) :
    ∃ row, tableRow before passed b = editDistance before passed :: row := by
  cases b with
  | nil => exact ⟨[], rfl⟩
  | cons d b => exact ⟨_, rfl⟩

/-- The code's row is the next row of the table. -/
theorem levenshteinRow_eq (c : CodeUnit) (before passed b : JsString) :
    editDistance (c :: before) passed ::
      levenshteinRow c (editDistance (c :: before) passed) b (tableRow before passed b) =
        tableRow (c :: before) passed b := by
  induction b generalizing passed with
  | nil => rfl
  | cons d b ih =>
    obtain ⟨row, hrow⟩ := tableRow_eq_cons before (d :: passed) b
    have hentry := editDistance_cons c d before passed
    have hnext := ih (d :: passed)
    rw [hrow] at hnext
    rw [tableRow, hrow, levenshteinRow, tableRow, ← hnext, ← hentry]

theorem levenshteinRows_eq (b a before : JsString) :
    levenshteinRows b before.length a (tableRow before [] b) =
      tableRow (a.reverse ++ before) [] b := by
  induction a generalizing before with
  | nil => rfl
  | cons c a ih =>
    have hrow := levenshteinRow_eq c before [] b
    rw [editDistance_nil_right, List.length_cons] at hrow
    rw [levenshteinRows, hrow, List.reverse_cons, List.append_assoc, List.singleton_append]
    exact ih (c :: before)

theorem tableRow_nil (passed b : JsString) :
    tableRow [] passed b = List.range' passed.length (b.length + 1) := by
  induction b generalizing passed with
  | nil => simp [tableRow]
  | cons d b ih =>
    have hcons := @List.range'_succ passed.length (b.length + 1) 1
    rw [tableRow, ih, editDistance_nil, List.length_cons, List.length_cons, hcons]

theorem getLast?_tableRow (before passed b : JsString) :
    (tableRow before passed b).getLast? = some (editDistance before (b.reverse ++ passed)) := by
  induction b generalizing passed with
  | nil => rfl
  | cons d b ih =>
    obtain ⟨row, hrow⟩ := tableRow_eq_cons before (d :: passed) b
    have hlast := ih (d :: passed)
    rw [hrow] at hlast
    rw [tableRow, hrow, List.getLast?_cons_cons, hlast, List.reverse_cons, List.append_assoc,
      List.singleton_append]

theorem levenshtein_eq (a b : JsString) : levenshtein a b = editDistance a b := by
  have hfirst : List.range (b.length + 1) = tableRow [] [] b := by
    rw [tableRow_nil, List.length_nil, List.range_eq_range']
  have hrows := levenshteinRows_eq b a []
  rw [List.length_nil, List.append_nil] at hrows
  rw [levenshtein, hfirst, hrows, List.getLastD_eq_getLast?, getLast?_tableRow, List.append_nil,
    Option.getD_some, editDistance_reverse]

end Table

section Bounds

variable (a b : JsString)

theorem length_trim_le : (trim a).length ≤ a.length := by
  unfold trim
  rw [List.length_reverse]
  refine (List.dropWhile_sublist _).length_le.trans ?_
  rw [List.length_reverse]
  exact (List.dropWhile_sublist _).length_le

theorem levenshtein_trim_le : levenshtein (trim a) (trim b) ≤ max a.length b.length := by
  rw [levenshtein_eq]
  exact (editDistance_le_max _ _).trans (max_le_max (length_trim_le a) (length_trim_le b))

theorem similarity_nonneg : 0 ≤ similarity a b := by
  unfold similarity
  split
  · exact zero_le_one
  · dsimp only
    split
    · exact zero_le_one
    · next hmax =>
      have hpos : (0 : ℚ) < (max a.length b.length : ℕ) := by
        exact_mod_cast Nat.pos_of_ne_zero hmax
      have hle : (levenshtein (trim a) (trim b) : ℚ) ≤ (max a.length b.length : ℕ) := by
        exact_mod_cast levenshtein_trim_le a b
      exact sub_nonneg.mpr ((div_le_one hpos).mpr hle)

theorem similarity_le_one : similarity a b ≤ 1 := by
  unfold similarity
  split
  · exact le_rfl
  · dsimp only
    split
    · exact le_rfl
    · exact sub_le_self _ (by positivity)

theorem similarity_comm : similarity a b = similarity b a := by
  unfold similarity
  rw [levenshtein_eq, levenshtein_eq, editDistance_comm, max_comm]
  simp only [eq_comm]

end Bounds

/-- The distance of two texts is the least number of single edits, and their similarity is a
number between 0 and 1 that does not depend on which of them is named first. -/
structure Measured (a b : JsString) : Prop where
  least : IsLeast {n | Edits n a b} (levenshtein a b)
  nonneg : 0 ≤ similarity a b
  le_one : similarity a b ≤ 1
  symmetric : similarity a b = similarity b a

theorem similarity_measured (a b : JsString) : Measured a b where
  least := levenshtein_eq a b ▸ isLeast_editDistance a b
  nonneg := similarity_nonneg a b
  le_one := similarity_le_one a b
  symmetric := similarity_comm a b

end Meridian
