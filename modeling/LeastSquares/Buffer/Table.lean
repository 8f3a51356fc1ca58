/-!
# Tables

Entries under distinct keys, in the order in which the keys came. A new entry under a key
that is there takes the place of the old one.
-/

namespace LeastSquares

/-- Entries under distinct keys, in order. -/
structure Table (K V : Type) where
  entries : List (K × V)
  distinct : (entries.map Prod.fst).Nodup

namespace Table

variable {K V W : Type} [DecidableEq K]

/-- The entries with that under `key` replaced, or added at the end. -/
def replace (key : K) (v : V) : List (K × V) → List (K × V)
  | [] => [(key, v)]
  | (k, w) :: rest => if k = key then (key, v) :: rest else (k, w) :: replace key v rest

theorem mem_keys_replace {key k : K} {v : V} {entries : List (K × V)}
    (h : k ∈ (replace key v entries).map Prod.fst) :
    k = key ∨ k ∈ entries.map Prod.fst := by
  induction entries with
  | nil => simpa [replace] using h
  | cons e rest ih =>
    obtain ⟨k', w⟩ := e
    by_cases hk : k' = key
    · subst hk
      simp only [replace, if_true, List.map_cons, List.mem_cons] at h ⊢
      exact .inr h
    · simp only [replace, if_neg hk, List.map_cons, List.mem_cons] at h ⊢
      rcases h with h | h
      · exact .inr (.inl h)
      · exact (ih h).imp id .inr

theorem distinct_replace {key : K} {v : V} {entries : List (K × V)}
    (h : (entries.map Prod.fst).Nodup) : ((replace key v entries).map Prod.fst).Nodup := by
  induction entries with
  | nil => simp [replace]
  | cons e rest ih =>
    obtain ⟨k, w⟩ := e
    simp only [List.map_cons, List.nodup_cons] at h
    by_cases hk : k = key
    · subst hk
      simpa [replace, List.nodup_cons] using h
    · simp only [replace, if_neg hk, List.map_cons, List.nodup_cons]
      refine ⟨fun hm => ?_, ih h.2⟩
      rcases mem_keys_replace hm with h1 | h1
      · exact hk h1
      · exact h.1 h1

def empty : Table K V := ⟨[], by simp⟩

instance : Inhabited (Table K V) := ⟨empty⟩

def insert (t : Table K V) (key : K) (v : V) : Table K V :=
  ⟨replace key v t.entries, distinct_replace t.distinct⟩

/-- The table of the entries; of two under one key the later stays, in the place of the
first. -/
def ofList (entries : List (K × V)) : Table K V :=
  entries.foldl (fun t (k, v) => t.insert k v) empty

def find (key : K) : List (K × V) → Option V
  | [] => none
  | (k, v) :: rest => if k = key then some v else find key rest

def get? (t : Table K V) (key : K) : Option V := find key t.entries

def keys (t : Table K V) : List K := t.entries.map Prod.fst

def contains (t : Table K V) (key : K) : Bool := key ∈ t.keys

def size (t : Table K V) : Nat := t.entries.length

omit [DecidableEq K] in
theorem keys_map (f : K → V → W) (entries : List (K × V)) :
    (entries.map fun e => (e.1, f e.1 e.2)).map Prod.fst = entries.map Prod.fst := by
  simp [List.map_map, Function.comp_def]

def map (f : K → V → W) (t : Table K V) : Table K W :=
  ⟨t.entries.map fun e => (e.1, f e.1 e.2), by rw [keys_map]; exact t.distinct⟩

/-- The images of the entries that have one, in order; the first failure stops. -/
def filterMapM {m : Type → Type} [Monad m] (f : K → V → m (Option W)) (t : Table K V) :
    m (Table K W) :=
  t.entries.foldlM
    (fun out (k, v) => do
      match ← f k v with
      | some w => return out.insert k w
      | none => return out)
    empty

/-- The images of all entries; the first failure stops. -/
def mapM {m : Type → Type} [Monad m] (f : K → V → m W) (t : Table K V) : m (Table K W) :=
  t.filterMapM fun k v => do return some (← f k v)

/-! ## Lookup -/

theorem find_replace (key k : K) (v : V) (entries : List (K × V)) :
    find k (replace key v entries) = if k = key then some v else find k entries := by
  induction entries with
  | nil =>
    by_cases h : k = key
    · simp [replace, find, h]
    · simp [replace, find, h, Ne.symm h]
  | cons e rest ih =>
    obtain ⟨k', w⟩ := e
    by_cases h1 : k' = key
    · subst h1
      by_cases h2 : k = k'
      · simp [replace, find, h2]
      · simp [replace, find, h2, Ne.symm h2]
    · by_cases h2 : k = key
      · subst h2
        simp [replace, find, h1, ih]
      · simp [replace, find, h1, h2, ih]

theorem get?_insert (t : Table K V) (key k : K) (v : V) :
    (t.insert key v).get? k = if k = key then some v else t.get? k :=
  find_replace key k v t.entries

end Table

end LeastSquares
