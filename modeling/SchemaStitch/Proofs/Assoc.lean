import SchemaStitch.Assoc
import Mathlib.Data.List.Nodup

/-! Association lists with distinct keys: what is read from them after writes, one list laid over
another, and a selection of their pairs. -/
namespace SchemaStitch.Assoc

variable {α : Type}

theorem nodup_insert {m : Assoc α} (nodup : m.keys.Nodup) (key : String) (value : α) :
    (m.insert key value).keys.Nodup := by
  rw [keys_insert]
  split
  · exact nodup
  · rename_i fresh
    exact nodup.append (List.nodup_singleton key) (by simpa using fresh)

theorem nodup_filter {m : Assoc α} (nodup : m.keys.Nodup) (test : String × α → Bool) :
    (keys (m.filter test)).Nodup :=
  nodup.sublist (List.filter_sublist.map _)

/-- Writing pairs with keys of their own puts them at the end. -/
theorem insert_fresh {m : Assoc α} {key : String} (fresh : key ∉ m.keys) (value : α) :
    m.insert key value = m ++ [(key, value)] := by
  induction m with
  | nil => rfl
  | cons pair rest ih =>
    simp only [keys, List.map_cons, List.mem_cons, not_or] at fresh
    rw [insert, if_neg (Ne.symm fresh.1), ih fresh.2]
    rfl

theorem insert_last {m : Assoc α} {key : String} (fresh : key ∉ m.keys) (old value : α) :
    insert (m ++ [(key, old)]) key value = m ++ [(key, value)] := by
  induction m with
  | nil => simp [insert]
  | cons pair rest ih =>
    simp only [keys, List.map_cons, List.mem_cons, not_or] at fresh
    rw [List.cons_append, insert, if_neg (Ne.symm fresh.1), ih fresh.2]
    rfl

theorem get?_last {m : Assoc α} {key : String} (fresh : key ∉ m.keys) (value : α) :
    get? (m ++ [(key, value)]) key = some value := by
  induction m with
  | nil => simp [get?]
  | cons pair rest ih =>
    simp only [keys, List.map_cons, List.mem_cons, not_or] at fresh
    rw [List.cons_append, get?, if_neg (Ne.symm fresh.1)]
    exact ih fresh.2

theorem get?_eq_none {m : Assoc α} {key : String} (lacks : key ∉ m.keys) : get? m key = none := by
  induction m with
  | nil => rfl
  | cons pair rest ih =>
    simp only [keys, List.map_cons, List.mem_cons, not_or] at lacks
    rw [get?, if_neg (Ne.symm lacks.1)]
    exact ih lacks.2

theorem overlay_fresh {m later : Assoc α} (nodup : (m ++ later).keys.Nodup) :
    m.overlay later = m ++ later := by
  induction later generalizing m with
  | nil => exact (List.append_nil m).symm
  | cons pair rest ih =>
    have fresh : pair.1 ∉ m.keys := by
      rw [keys, List.map_append, List.nodup_append'] at nodup
      exact fun inside => nodup.2.2 inside List.mem_cons_self
    have step : m.overlay (pair :: rest) = (m.insert pair.1 pair.2).overlay rest := rfl
    rw [step, insert_fresh fresh, ih (by simpa using nodup), List.append_assoc]
    rfl

/-- Of two lists laid over each other, the later one says what a key stands for. -/
theorem get?_overlay {m later : Assoc α} (nodup : later.keys.Nodup) (key : String) :
    get? (m.overlay later) key = (get? later key).or (get? m key) := by
  induction later generalizing m with
  | nil => rfl
  | cons pair rest ih =>
    obtain ⟨fresh, nodup⟩ := List.nodup_cons.mp nodup
    have step : m.overlay (pair :: rest) = (m.insert pair.1 pair.2).overlay rest := rfl
    rw [step, ih nodup, get?_insert, get?]
    by_cases here : pair.1 = key
    · subst here
      simp [get?_eq_none fresh]
    · simp [here]

/-- Lists laid over each other have their keys in the order of first occurrence. -/
theorem keys_overlay {m : Assoc α} {names : List String} (first : m.keys = names.eraseDups)
    (later : Assoc α) : (m.overlay later).keys = (names ++ later.keys).eraseDups := by
  induction later generalizing m names with
  | nil => simpa [overlay, keys] using first
  | cons pair rest ih =>
    have written : (m.insert pair.1 pair.2).keys = (names ++ [pair.1]).eraseDups := by
      rw [keys_insert, first, List.eraseDups_append]
      by_cases known : pair.1 ∈ names <;> simp [known, List.removeAll, List.eraseDups_cons]
    have step : m.overlay (pair :: rest) = (m.insert pair.1 pair.2).overlay rest := rfl
    rw [step, ih written, List.append_assoc]
    rfl

/-- A selection by keys leaves what the selected keys stand for, and nothing else. -/
theorem get?_filter (m : Assoc α) (test : String → Bool) (key : String) :
    get? (m.filter fun pair => test pair.1) key = if test key then get? m key else none := by
  induction m with
  | nil => simp [get?]
  | cons pair rest ih =>
    obtain ⟨k, v⟩ := pair
    rw [List.filter_cons, get?]
    by_cases here : k = key
    · subst here
      by_cases passes : test k <;> simp [passes, get?, ih]
    · by_cases passes : test k <;> simp [passes, get?, here, ih]

end SchemaStitch.Assoc
