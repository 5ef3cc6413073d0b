import Mathlib.Algebra.Group.Nat.Defs
import Mathlib.Data.List.TakeWhile
import RepoAudit.Instant.Written
import RepoAudit.Proofs.Text.Number
import RepoAudit.Proofs.Weakness

/-!
# Reading written instants

An instant of the calendar is read back from its written form, with its sign if its year needs one
and with every digit of its second. The fields are read one after the other, each with what follows
it.

## Main statements

- `Instant.readYear?_write`, `Instant.readFraction?_write` — the fields of varying width
- `Instant.read?_write` — a written instant is read back
-/

namespace RepoAudit

namespace Text

theorem length_padded {width n : Nat} (hwidth : 0 < width) (h : n < 10 ^ width) :
    (padded width n).length = width := by
  have hle : (Nat.toDigits 10 n).length ≤ width :=
    (Nat.length_toDigits_le_iff (by decide) hwidth).mpr h
  rw [padded, List.length_append, List.length_replicate]
  omega

/-- A number starts with a digit, however it is padded. -/
theorem exists_padded_eq_cons (width n : Nat) :
    ∃ c cs, padded width n = c :: cs ∧ c.isDigit = true := by
  obtain ⟨c, cs, hcs⟩ := List.exists_cons_of_ne_nil (padded_ne_nil width n)
  have hmem : c ∈ padded width n := hcs ▸ List.mem_cons_self
  exact ⟨c, cs, hcs, isDigit_of_mem_padded hmem⟩

theorem trimStart_padded (width n : Nat) (rest : List Char) :
    trimStart (padded width n ++ rest) = padded width n ++ rest := by
  obtain ⟨c, cs, hcs, hdigit⟩ := exists_padded_eq_cons width n
  rw [hcs]
  refine trimStart_eq_self fun d hd => ?_
  obtain rfl : c = d := by simpa using hd
  exact Weakness.isBlank_of_isDigit hdigit

end Text

namespace Instant

open RepoAudit.Text

/-! ## Fields -/

theorem takeWhile_padded (width n : Nat) {mark : Char} (hmark : mark.isDigit = false)
    (rest : List Char) :
    (padded width n ++ mark :: rest).takeWhile Char.isDigit = padded width n := by
  rw [List.takeWhile_append_of_pos fun c => isDigit_of_mem_padded,
    List.takeWhile_cons_of_neg (by simp [hmark]), List.append_nil]

/-- The digits of a number of known width are read, and no more. -/
theorem readDigits?_padded {width n : Nat} (hwidth : 0 < width) (h : n < 10 ^ width)
    (rest : List Char) : readDigits? width (padded width n ++ rest) = some (n, rest) := by
  have htake : (padded width n ++ rest).take width = padded width n :=
    List.take_left' (length_padded hwidth h)
  have hdigits : (padded width n).takeWhile Char.isDigit = padded width n :=
    List.takeWhile_eq_self_iff.mpr fun c hc => isDigit_of_mem_padded hc
  rw [readDigits?, htake, hdigits, if_neg (by simpa using padded_ne_nil width n),
    digitsValue_padded, List.drop_left' rfl]

/-- Where any number of digits is admitted, they are read up to the next mark. -/
theorem readDigits?_unbounded (width n : Nat) {mark : Char} (hmark : mark.isDigit = false)
    (rest : List Char) :
    readDigits? (padded width n ++ mark :: rest).length (padded width n ++ mark :: rest) =
      some (n, mark :: rest) := by
  rw [readDigits?, List.take_of_length_le (Nat.le_refl _), takeWhile_padded width n hmark,
    if_neg (by simpa using padded_ne_nil width n), digitsValue_padded, List.drop_left' rfl]

theorem readField?_padded {n : Nat} (h : n < 100) (rest : List Char) :
    readField? (padded 2 n ++ rest) = some (n, rest) := by
  rw [readField?, trimStart_padded]
  exact readDigits?_padded (by decide) h rest

theorem readYear?_padded {n : Nat} (h : n ≤ 9999) (rest : List Char) :
    readYear? (padded 4 n ++ rest) = some ((n : Int), rest) := by
  have hread : readDigits? 4 (padded 4 n ++ rest) = some (n, rest) :=
    readDigits?_padded (by decide) (by omega) rest
  obtain ⟨c, cs, hcs, hdigit⟩ := exists_padded_eq_cons 4 n
  rw [readYear?, trimStart_padded]
  -- A digit is no sign, so the third way of reading a year is taken.
  split
  · next heq =>
    rw [hcs] at heq
    cases heq
    cases hdigit
  · next heq =>
    rw [hcs] at heq
    cases heq
    cases hdigit
  · rw [hread]
    rfl

theorem readYear?_sign {sign : Char} (hsign : sign = '-' ∨ sign = '+') (n : Nat)
    (rest : List Char) :
    readYear? (sign :: (padded 4 n ++ '-' :: rest)) =
      some (if sign = '-' then -(n : Int) else n, '-' :: rest) := by
  have hread : readDigits? (padded 4 n ++ '-' :: rest).length (padded 4 n ++ '-' :: rest) =
      some (n, '-' :: rest) := readDigits?_unbounded 4 n rfl rest
  rcases hsign with rfl | rfl
  · change (readDigits? (padded 4 n ++ '-' :: rest).length _).map _ = _
    rw [hread]
    rfl
  · change (readDigits? (padded 4 n ++ '-' :: rest).length _).map _ = _
    rw [hread]
    rfl

/-- A year is read back, with the dash behind it left. -/
theorem readYear?_write (year : Int) (rest : List Char) :
    readYear? (writeYear year ++ '-' :: rest) = some (year, '-' :: rest) := by
  rw [writeYear]
  split
  · next hcommon =>
    simp only [Bool.and_eq_true, decide_eq_true_eq] at hcommon
    rw [readYear?_padded (by omega), Int.toNat_of_nonneg hcommon.1]
  · next hcommon =>
    simp only [Bool.and_eq_true, decide_eq_true_eq, not_and] at hcommon
    split
    · next hnegative =>
      rw [List.cons_append, readYear?_sign (.inl rfl), if_pos rfl, Int.toNat_of_nonneg (by omega),
        Int.neg_neg]
    · rw [List.cons_append, readYear?_sign (.inr rfl), if_neg (by decide),
        Int.toNat_of_nonneg (by omega)]

theorem readMark?_cons {mark : Char} (h : isBlank mark = false) (rest : List Char) :
    readMark? mark (mark :: rest) = some rest := by
  have htrim : trimStart (mark :: rest) = mark :: rest :=
    trimStart_eq_self fun c hc => by
      obtain rfl : mark = c := by simpa using hc
      exact h
  rw [readMark?, htrim]
  exact if_pos rfl

/-- The digits of a fraction are read up to the zone. -/
theorem readFraction?_padded {width n : Nat} (hwidth : 0 < width) (hnine : width ≤ 9)
    (h : n < 10 ^ width) {zone : Char} (hzone : zone.isDigit = false) (rest : List Char) :
    readFraction? ('.' :: (padded width n ++ zone :: rest)) =
      some (n * 10 ^ (9 - width), zone :: rest) := by
  have hrest : (padded width n ++ zone :: rest).dropWhile Char.isDigit = zone :: rest := by
    rw [List.dropWhile_append_of_pos fun c => isDigit_of_mem_padded,
      List.dropWhile_cons_of_neg (by simp [hzone])]
  have hlength := length_padded hwidth h
  rw [readFraction?, takeWhile_padded width n hzone, hrest]
  dsimp only
  rw [if_neg (by simpa using padded_ne_nil width n), List.take_of_length_le (by omega),
    digitsValue_padded, hlength]
  rfl

/-- A fraction is read back, however many digits it is written with. -/
theorem readFraction?_write {nano : Nat} (h : nano ≤ 999999999) (rest : List Char) :
    readFraction? (writeFraction nano ++ 'Z' :: rest) = some (nano, 'Z' :: rest) := by
  rw [writeFraction]
  split
  · next hzero =>
    rw [hzero]
    rfl
  · split
    · next hmilli =>
      rw [List.cons_append, readFraction?_padded (by decide) (by decide) (by omega) rfl]
      congr 2
      omega
    · split
      · next hmicro =>
        rw [List.cons_append, readFraction?_padded (by decide) (by decide) (by omega) rfl]
        congr 2
        omega
      · rw [List.cons_append, readFraction?_padded (by decide) (by decide) (by omega) rfl]
        congr 2
        omega

/-- Universal time is moved by nothing. -/
theorem shift_zero {t : Instant} (hhour : t.hour ≤ 23) (hminute : t.minute ≤ 59) :
    t.shift 0 = t := by
  have hplace : ((t.hour : Int) * 60 + t.minute + 0) / 60 = t.hour ∧
      ((t.hour : Int) * 60 + t.minute + 0) % 60 = t.minute := by
    omega
  rw [shift]
  dsimp only
  rw [if_neg (by omega), if_neg (by omega), hplace.1, hplace.2]
  rfl

/-! ## Instants -/

theorem daysInMonth_le (year : Int) (month : Nat) : daysInMonth year month ≤ 31 := by
  unfold daysInMonth
  split_ifs <;> decide

/-- The zone of a snapshot is universal time. -/
theorem readZone?_utc : readZone? (trimStart ['Z']) = some (0, []) := rfl

/-- An instant is read back from its written form. -/
theorem read?_write {t : Instant} (h : t.isValid) : Instant.read? t.write = some t := by
  have hfields := h
  simp only [isValid, Bool.and_eq_true, decide_eq_true_eq] at hfields
  obtain ⟨⟨⟨⟨⟨⟨⟨-, hmonth⟩, -⟩, hday⟩, hhour⟩, hminute⟩, hsecond⟩, hnano⟩ := hfields
  have hdays := daysInMonth_le t.year t.month
  have hdash : ∀ rest, readMark? '-' ('-' :: rest) = some rest := readMark?_cons rfl
  have hcolon : ∀ rest, readMark? ':' (':' :: rest) = some rest := readMark?_cons rfl
  rw [read?, write, String.toList_ofList, writeWith]
  simp only [List.append_assoc, List.cons_append]
  -- Each field leaves exactly what was written behind it.
  rw [readChars?]
  refine bind_of_eq_some (readYear?_write _ _) (bind_of_eq_some (hdash _)
    (bind_of_eq_some (readField?_padded (by omega) _) (bind_of_eq_some (hdash _)
      (bind_of_eq_some (readField?_padded (by omega) _) (bind_of_eq_some rfl ?_)))))
  refine bind_of_eq_some (readField?_padded (by omega) _) (bind_of_eq_some (hcolon _)
    (bind_of_eq_some (readField?_padded (by omega) _) (bind_of_eq_some (hcolon _)
      (bind_of_eq_some (readField?_padded (by omega) _)
        (bind_of_eq_some (readFraction?_write hnano _) (bind_of_eq_some readZone?_utc ?_))))))
  simp only [h, isBlankText, List.all_nil, Bool.not_true, Int.neg_zero, shift_zero hhour hminute,
    Bool.false_eq_true, if_true, if_false]

end Instant

end RepoAudit
