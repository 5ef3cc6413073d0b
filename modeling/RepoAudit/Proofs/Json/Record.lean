import RepoAudit.Json.Decode
import RepoAudit.SnapshotJson
import RepoAudit.Proofs.Json.RoundTrip

/-!
# Records and their fields

A record is written with the entries of the fields that have a value, in the order of the fields.
Reading such a record gives every field back, with or without a value.

## Main definitions

- `Json.entriesOf` — the entries of a record, from the names and the values of its fields

## Main statements

- `Json.fields?_record` — the fields of a written record
- `Json.optional_map` — an optional field is read back as it was written
- `Json.counter?_nat` — which natural numbers are read back as counters
-/

namespace RepoAudit

theorem entryIfAny_eq {α : Type} (key : String) (write : α → Json) (value : Option α) :
    entryIfAny key write value = ((value.map write).map (key, ·)).toList := by
  cases value <;> rfl

namespace Json

open RepoAudit.Text

/-- The entries of a record: one for each field that has a value. -/
def entriesOf (names : List String) (values : List (Option Json)) : List (String × Json) :=
  (names.zip values).flatMap fun field => (field.2.map (field.1, ·)).toList

theorem filter_entriesOf_of_notMem {names : List String} (values : List (Option Json))
    {name : String} (h : name ∉ names) :
    (entriesOf names values).filter (fun e => e.1 == name) = [] := by
  rw [List.filter_eq_nil_iff]
  rintro ⟨key, value⟩ hmem heq
  obtain ⟨field, hfield, hentry⟩ := List.mem_flatMap.mp hmem
  obtain ⟨v, -, hv⟩ := Option.map_eq_some_iff.mp (Option.mem_toList.mp hentry)
  have hkey : field.1 = name := by
    rw [← (Prod.mk.inj hv).1] at heq
    exact beq_iff_eq.mp heq
  exact h (hkey ▸ (List.of_mem_zip hfield).1)

theorem filter_entriesOf {names : List String} {values : List (Option Json)} (hnodup : names.Nodup)
    {field : String × Option Json} (h : field ∈ names.zip values) :
    (entriesOf names values).filter (fun e => e.1 == field.1) =
      (field.2.map (field.1, ·)).toList := by
  induction names generalizing values with
  | nil => simp at h
  | cons name names ih =>
    obtain ⟨hname, hnodup⟩ := List.nodup_cons.mp hnodup
    cases values with
    | nil => simp at h
    | cons value values =>
      have hsplit : entriesOf (name :: names) (value :: values) =
          (value.map (name, ·)).toList ++ entriesOf names values := rfl
      rw [hsplit, List.filter_append]
      rw [List.zip_cons_cons, List.mem_cons] at h
      rcases h with rfl | h
      · rw [filter_entriesOf_of_notMem values hname, List.append_nil]
        cases value <;> simp
      · have hne : name ≠ field.1 := by
          rintro rfl
          exact hname (List.of_mem_zip h).1
        rw [ih hnodup h]
        cases value <;> simp [hne]

theorem entryOf?_record {names : List String} {values : List (Option Json)} (hnodup : names.Nodup)
    {field : String × Option Json} (h : field ∈ names.zip values) :
    entryOf? ((entriesOf names values).map fun e => (some e.1, e.2)) field.1 = some field.2 := by
  have hfilter : (((entriesOf names values).map fun e => (some e.1, e.2)).filter
      fun e => e.1 == some field.1) =
      ((entriesOf names values).filter fun e => e.1 == field.1).map fun e => (some e.1, e.2) := by
    rw [List.filter_map]
    rfl
  rw [entryOf?, hfilter, filter_entriesOf hnodup h]
  cases field.2 <;> rfl

theorem mapM_zip {α β : Type} (f : α → Option β) {as : List α} {bs : List β}
    (hlength : as.length = bs.length) (h : ∀ p ∈ as.zip bs, f p.1 = some p.2) :
    as.mapM f = some bs := by
  induction as generalizing bs with
  | nil =>
    obtain rfl := List.length_eq_zero_iff.mp hlength.symm
    rfl
  | cons a as ih =>
    cases bs with
    | nil => simp at hlength
    | cons b bs =>
      rw [List.mapM_cons, h (a, b) (by simp), ih (by simpa using hlength)
        fun p hp => h p (by simp [hp])]
      rfl

/-- The fields of a written record, those without a value included. -/
theorem fields?_record {names : List String} {values : List (Option Json)} (hnodup : names.Nodup)
    (hlength : names.length = values.length) :
    fields? names (record (entriesOf names values)) = some values := by
  rw [record, fields?, if_pos (by simp)]
  exact mapM_zip _ hlength fun field hfield => entryOf?_record hnodup hfield

theorem itemsWritten_iff (items : List Json) :
    ItemsWritten items ↔ ∀ j ∈ items, j.IsWritten := by
  induction items with
  | nil => simp [ItemsWritten]
  | cons j js ih => simp [ItemsWritten, ih]

theorem entriesWritten_iff (entries : List (Option String × Json)) :
    EntriesWritten entries ↔ ∀ e ∈ entries, e.1.isSome ∧ e.2.IsWritten := by
  induction entries with
  | nil => simp [EntriesWritten]
  | cons e es ih => simp [EntriesWritten, ih, and_assoc]

theorem isWritten_record {names : List String} {values : List (Option Json)}
    (h : ∀ value ∈ values, ∀ j ∈ value, j.IsWritten) :
    (record (entriesOf names values)).IsWritten := by
  rw [record, IsWritten, entriesWritten_iff]
  simp only [List.mem_map]
  rintro _ ⟨⟨key, j⟩, hmem, rfl⟩
  obtain ⟨field, hfield, hentry⟩ := List.mem_flatMap.mp hmem
  obtain ⟨v, hvalue, hv⟩ := Option.map_eq_some_iff.mp (Option.mem_toList.mp hentry)
  refine ⟨rfl, ?_⟩
  rw [← (Prod.mk.inj hv).2]
  exact h _ (List.of_mem_zip hfield).2 v hvalue

theorem isWritten_listJson {α : Type} {write : α → Json} (h : ∀ a, (write a).IsWritten)
    (items : List α) : (listJson write items).IsWritten := by
  rw [listJson, IsWritten, itemsWritten_iff]
  simp only [List.mem_map]
  rintro _ ⟨a, -, rfl⟩
  exact h a

/-! ## Single fields -/

theorem optional_some {α : Type} (d : Json → Option α) {j : Json} (h : j ≠ .null) :
    optional d (some j) = (d j).map some := by
  cases j with
  | null => exact (h rfl).elim
  | bool b => rfl
  | number digits => rfl
  | string s => rfl
  | array items => rfl
  | object entries => rfl

/-- An optional field is read as what its value decodes to. -/
theorem required_of_eq {α : Type} {d : Json → Option α} {field : Option Json} {j : Json} {a : α}
    (hfield : field = some j) (h : d j = some a) : required d field = some a := by
  rw [hfield]
  exact h

theorem optional_map_of_eq {α β : Type} {w : α → Json} {d : Json → Option β} {f : α → β}
    {value : Option α} (hnull : ∀ a, w a ≠ .null)
    (h : ∀ a, value = some a → d (w a) = some (f a)) :
    optional d (value.map w) = some (value.map f) := by
  cases value with
  | none => rfl
  | some a => rw [Option.map_some, optional_some d (hnull a), h a rfl, Option.map_some,
      Option.map_some]

theorem optional_map {α β : Type} {w : α → Json} {d : Json → Option β} {f : α → β}
    (hnull : ∀ a, w a ≠ .null) (h : ∀ a, d (w a) = some (f a)) (value : Option α) :
    optional d (value.map w) = some (value.map f) :=
  optional_map_of_eq hnull fun a _ => h a

theorem optional_map_self {α : Type} {w : α → Json} {d : Json → Option α}
    (hnull : ∀ a, w a ≠ .null) (h : ∀ a, d (w a) = some a) (value : Option α) :
    optional d (value.map w) = some value := by
  rw [optional_map hnull h, Option.map_id']

theorem list?_listJson {α β : Type} (write : α → Json) (decode : Json → Option β)
    (items : List α) :
    list? decode (listJson write items) = items.mapM fun a => decode (write a) := by
  rw [listJson, list?]
  induction items with
  | nil => rfl
  | cons a as ih => simp only [List.map_cons, List.mapM_cons, ih]

theorem mapM_eq_some_self {α : Type} {f : α → Option α} {as : List α}
    (h : ∀ a ∈ as, f a = some a) : as.mapM f = some as := by
  induction as with
  | nil => rfl
  | cons a as ih =>
    rw [List.mapM_cons, h a List.mem_cons_self, ih fun b hb => h b (List.mem_cons_of_mem a hb)]
    rfl

/-- A list of values that are read back one by one is read back. -/
theorem list?_listJson_of_eq {α : Type} {w : α → Json} {d : Json → Option α}
    (h : ∀ a, d (w a) = some a) (items : List α) :
    list? d (listJson w items) = some items := by
  rw [list?_listJson]
  exact mapM_eq_some_self fun a _ => h a

/-- A natural number is read back as a counter if it is within the bound. -/
theorem counter?_nat (n : Nat) : counter? (nat n) = if n ≤ maxCounter then some n else none := by
  have hdigits : (Nat.toDigits 10 n).all Char.isDigit = true := by
    rw [List.all_eq_true]
    exact fun c hc => isDigit_of_mem_toDigits hc
  rw [nat, counter?, hdigits, digitsValue_toDigits]
  simp

end Json

end RepoAudit
