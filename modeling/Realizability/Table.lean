/-!
# Tables

A table maps names to values and keeps its names in the order in which they were first put;
putting a name again replaces its value in place.
-/

namespace Realizability

theorem eraseDups_concat {α : Type} [DecidableEq α] (xs : List α) (x : α) :
    (xs ++ [x]).eraseDups = if x ∈ xs then xs.eraseDups else xs.eraseDups ++ [x] := by
  rw [List.eraseDups_append]
  by_cases h : x ∈ xs
  · simp [List.removeAll, h]
  · simp [List.removeAll, h, List.eraseDups_cons]

abbrev Table (α : Type) := List (String × α)

namespace Table

variable {α β : Type}

def get? (key : String) : Table α → Option α
  | [] => none
  | (k, v) :: t => if k = key then some v else get? key t

def put (key : String) (value : α) : Table α → Table α
  | [] => [(key, value)]
  | (k, v) :: t => if k = key then (key, value) :: t else (k, v) :: put key value t

def keys (t : Table α) : List String := t.map Prod.fst

def values (t : Table α) : List α := t.map Prod.snd

def has (t : Table α) (key : String) : Bool := (t.get? key).isSome

/-- The table of a list of entries, the last one of a name winning. -/
def ofEntries (entries : List (String × α)) : Table α :=
  entries.foldl (fun t e => t.put e.1 e.2) []

/-! ## Reading a table after a put -/

@[simp] theorem get?_nil (key : String) : get? key ([] : Table α) = none := rfl

theorem get?_put (key name : String) (value : α) (t : Table α) :
    get? name (put key value t) = if key = name then some value else get? name t := by
  induction t with
  | nil => simp [put, get?]
  | cons e t ih =>
    obtain ⟨k, v⟩ := e
    by_cases h : k = key
    · subst h
      by_cases hn : k = name <;> simp [put, get?, hn]
    · by_cases hn : k = name
      · subst hn
        simp [put, get?, h, Ne.symm h]
      · simp [put, get?, h, hn, ih]

theorem mem_of_get? {key : String} {value : α} {t : Table α} (h : t.get? key = some value) :
    (key, value) ∈ t := by
  induction t with
  | nil => cases h
  | cons e t ih =>
    obtain ⟨k, v⟩ := e
    by_cases hk : k = key
    · simp_all [get?]
    · simp_all [get?]

theorem has_iff_mem_keys (t : Table α) (key : String) : t.has key = true ↔ key ∈ t.keys := by
  induction t with
  | nil => simp [has, get?, keys]
  | cons e t ih =>
    obtain ⟨k, v⟩ := e
    by_cases h : k = key
    · simp [has, get?, keys, h]
    · simpa [has, get?, keys, h, Ne.symm h] using ih

/-- A name that is already there keeps its place, a new one comes last. -/
theorem keys_put (key : String) (value : α) (t : Table α) :
    (put key value t).keys = if key ∈ t.keys then t.keys else t.keys ++ [key] := by
  induction t with
  | nil => simp [put, keys]
  | cons e t ih =>
    obtain ⟨k, v⟩ := e
    by_cases h : k = key
    · simp [put, keys, h]
    · have : (put key value t).map Prod.fst = if key ∈ t.map Prod.fst then t.map Prod.fst
          else t.map Prod.fst ++ [key] := ih
      by_cases hm : key ∈ t.map Prod.fst
      · simp only [put, h, if_false, keys, List.map_cons, List.mem_cons, hm, or_true, if_true]
        rw [this, if_pos hm]
      · simp only [put, h, if_false, keys, List.map_cons, List.mem_cons, hm, or_false,
          Ne.symm h, List.cons_append]
        rw [this, if_neg hm]

/-- A table of different names is what it holds under each of them. -/
theorem eq_map_keys {t : Table α} {f : String → α} (h : t.keys.Nodup)
    (hf : ∀ x ∈ t.keys, t.get? x = some (f x)) : t = t.keys.map fun x => (x, f x) := by
  induction t with
  | nil => rfl
  | cons e t ih =>
    obtain ⟨x, a⟩ := e
    obtain ⟨hx, ht⟩ := List.nodup_cons.mp h
    have hhead : a = f x := by simpa [get?] using hf x List.mem_cons_self
    have htail : ∀ y ∈ keys t, get? y t = some (f y) := by
      intro y hy
      have hne : x ≠ y := fun heq => hx (heq ▸ hy)
      have := hf y (List.mem_cons_of_mem x hy)
      simpa [get?, hne] using this
    change (x, a) :: t = (x, f x) :: (keys t).map fun x => (x, f x)
    rw [← ih ht htail, hhead]

/-! ## Tables of entries -/

/-- The table holds what was written last under each name, the names in the order in which they
occur first. -/
structure Records (t : Table α) (writes : List (String × α)) : Prop where
  keys : t.keys = (writes.map Prod.fst).eraseDups
  value : ∀ key, t.get? key = ((writes.filter (·.1 = key)).getLast?).map Prod.snd

theorem records_nil : Records ([] : Table α) [] := ⟨rfl, fun _ => rfl⟩

theorem Records.put {t : Table α} {writes : List (String × α)} (h : t.Records writes)
    (key : String) (value : α) : (t.put key value).Records (writes ++ [(key, value)]) where
  keys := by
    simp only [keys_put, h.keys, List.map_append, List.map_cons, List.map_nil, eraseDups_concat,
      List.mem_eraseDups]
  value name := by
    rw [get?_put, h.value, List.filter_append]
    by_cases hk : key = name
    · simp [hk]
    · simp [hk]

theorem Records.foldl {t : Table α} {writes : List (String × α)} (h : t.Records writes)
    (entries : List (String × α)) :
    (entries.foldl (fun t e => t.put e.1 e.2) t).Records (writes ++ entries) := by
  induction entries generalizing t writes with
  | nil => simpa using h
  | cons e entries ih => simpa using ih (h.put e.1 e.2)

theorem records_ofEntries (entries : List (String × α)) : (ofEntries entries).Records entries :=
  records_nil.foldl entries

end Table

end Realizability
