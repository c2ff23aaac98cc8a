/-!
# Finite tables keyed by numbers

A table keeps its entries in the order in which their keys were first set. Setting a present key
replaces its value in place.
-/

namespace Elaboration

/-- A finite map from numbers, in order of first insertion. -/
structure Table (α : Type) where
  entries : List (Nat × α) := []
deriving Repr

namespace Table

variable {α : Type}

/-- The table without entries. -/
def empty : Table α := ⟨[]⟩

private def getAssoc (k : Nat) : List (Nat × α) → Option α
  | [] => none
  | (j, a) :: rest => if j = k then some a else getAssoc k rest

private def setAssoc (k : Nat) (a : α) : List (Nat × α) → List (Nat × α)
  | [] => [(k, a)]
  | (j, b) :: rest => if j = k then (j, a) :: rest else (j, b) :: setAssoc k a rest

/-- The value at a key. -/
def get? (t : Table α) (k : Nat) : Option α := getAssoc k t.entries

/-- Sets the value at a key: in place if the key is present, else as the last entry. -/
def set (t : Table α) (k : Nat) (a : α) : Table α := ⟨setAssoc k a t.entries⟩

/-- Removes every entry of a key. -/
def erase (t : Table α) (k : Nat) : Table α := ⟨t.entries.filter fun e => e.1 ≠ k⟩

/-- Whether the key has a value. -/
def contains (t : Table α) (k : Nat) : Bool := (t.get? k).isSome

/-- The keys, in order of first insertion. -/
def keys (t : Table α) : List Nat := t.entries.map Prod.fst

/-- Number of entries. -/
def size (t : Table α) : Nat := t.entries.length

/-- Whether there are no entries. -/
def isEmpty (t : Table α) : Bool := t.entries.isEmpty

private theorem getAssoc_setAssoc (k j : Nat) (a : α) (es : List (Nat × α)) :
    getAssoc j (setAssoc k a es) = if k = j then some a else getAssoc j es := by
  induction es with
  | nil => simp [setAssoc, getAssoc]
  | cons e rest ih =>
    obtain ⟨i, b⟩ := e
    by_cases hik : i = k
    · subst hik
      by_cases hij : i = j <;> simp [setAssoc, getAssoc, hij]
    · by_cases hij : i = j
      · subst hij
        simp [setAssoc, getAssoc, hik, Ne.symm hik]
      · simp [setAssoc, getAssoc, hik, hij, ih]

private theorem getAssoc_filter (k j : Nat) (es : List (Nat × α)) :
    getAssoc j (es.filter fun e => e.1 ≠ k) = if k = j then none else getAssoc j es := by
  induction es with
  | nil => simp [getAssoc]
  | cons e rest ih =>
    obtain ⟨i, b⟩ := e
    by_cases hik : i = k
    · subst hik
      by_cases hij : i = j <;> simp_all [getAssoc]
    · by_cases hij : i = j
      · subst hij
        simp [getAssoc, hik, Ne.symm hik]
      · simp_all [getAssoc]

private theorem mem_of_getAssoc {k : Nat} {a : α} {es : List (Nat × α)}
    (h : getAssoc k es = some a) : (k, a) ∈ es := by
  induction es with
  | nil => cases h
  | cons e rest ih =>
    obtain ⟨j, b⟩ := e
    by_cases hjk : j = k
    · simp_all [getAssoc]
    · simp_all [getAssoc]

private theorem getAssoc_of_mem {k : Nat} {a : α} {es : List (Nat × α)}
    (hd : (es.map Prod.fst).Nodup) (h : (k, a) ∈ es) : getAssoc k es = some a := by
  induction es with
  | nil => cases h
  | cons e rest ih =>
    obtain ⟨j, b⟩ := e
    rw [List.map_cons, List.nodup_cons] at hd
    rcases List.mem_cons.1 h with h | h
    · cases h
      simp [getAssoc]
    · have hjk : j ≠ k := by
        intro hjk
        exact hd.1 (List.mem_map.2 ⟨(k, a), h, hjk.symm⟩)
      simpa [getAssoc, hjk] using ih hd.2 h

private theorem keys_setAssoc (k : Nat) (a : α) (es : List (Nat × α)) :
    (setAssoc k a es).map Prod.fst =
      if k ∈ es.map Prod.fst then es.map Prod.fst else es.map Prod.fst ++ [k] := by
  induction es with
  | nil => simp [setAssoc]
  | cons e rest ih =>
    obtain ⟨j, b⟩ := e
    by_cases hjk : j = k
    · simp [setAssoc, hjk]
    · have hkj : ¬ k = j := fun h => hjk h.symm
      by_cases hk : k ∈ rest.map Prod.fst
      · simp_all [setAssoc]
      · simp_all [setAssoc]

/-- A value found at a key is an entry. -/
theorem mem_of_get? {t : Table α} {k : Nat} {a : α} (h : t.get? k = some a) : (k, a) ∈ t.entries :=
  mem_of_getAssoc h

/-- What holds of all entries holds of what is found. -/
theorem forall_get? {t : Table α} {P : Nat → α → Prop} (h : ∀ x ∈ t.entries, P x.1 x.2) (k : Nat)
    (a : α) (hget : t.get? k = some a) : P k a :=
  h _ (mem_of_get? hget)

/-- If no key has two entries, every entry is found. -/
theorem get?_of_mem {t : Table α} (hd : t.keys.Nodup) {k : Nat} {a : α} (h : (k, a) ∈ t.entries) :
    t.get? k = some a :=
  getAssoc_of_mem hd h

/-- Setting a key adds it at the end unless it is present. -/
theorem keys_set (t : Table α) (k : Nat) (a : α) :
    (t.set k a).keys = if k ∈ t.keys then t.keys else t.keys ++ [k] :=
  keys_setAssoc k a t.entries

/-- Keys are distinct if they were. -/
theorem nodup_keys_set {t : Table α} (hd : t.keys.Nodup) (k : Nat) (a : α) :
    (t.set k a).keys.Nodup := by
  rw [keys_set]
  split
  · exact hd
  · next hk =>
    rw [List.nodup_append]
    refine ⟨hd, List.nodup_cons.2 ⟨List.not_mem_nil, List.nodup_nil⟩, ?_⟩
    rintro x hx y hy rfl
    rw [List.mem_singleton] at hy
    exact hk (hy ▸ hx)

theorem nodup_keys_erase {t : Table α} (hd : t.keys.Nodup) (k : Nat) : (t.erase k).keys.Nodup := by
  have hsub : (t.erase k).keys.Sublist t.keys := List.filter_sublist.map Prod.fst
  exact hsub.nodup hd

/-- A table gets smaller when a present key is erased. -/
theorem size_erase_lt {t : Table α} {k : Nat} {a : α} (h : t.get? k = some a) :
    (t.erase k).size < t.size := by
  refine Nat.lt_of_le_of_ne (List.length_filter_le ..) fun heq => ?_
  have hall := List.length_filter_eq_length_iff.1 heq (k, a) (mem_of_get? h)
  simp at hall

/-- No key has a value in the empty table. -/
@[simp] theorem get?_empty (k : Nat) : (empty : Table α).get? k = none := rfl

/-- Setting a key changes the value of that key only. -/
theorem get?_set (t : Table α) (k j : Nat) (a : α) :
    (t.set k a).get? j = if k = j then some a else t.get? j :=
  getAssoc_setAssoc k j a t.entries

/-- Erasing a key removes the value of that key only. -/
theorem get?_erase (t : Table α) (k j : Nat) :
    (t.erase k).get? j = if k = j then none else t.get? j :=
  getAssoc_filter k j t.entries

end Table
end Elaboration
