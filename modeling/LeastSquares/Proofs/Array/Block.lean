import LeastSquares.Proofs.Array.Tensor
import LeastSquares.Proofs.Numeric.Exact
import LeastSquares.Array.Block

/-!
# Entries of blocks in exact arithmetic

What the operations on blocks of scalars compute, entry by entry, once their operands fit. Sums over
entries are sums in the field.
-/

namespace LeastSquares.Block

variable {α : Type} [LinearOrder α] [ExactScalar α]

omit [LinearOrder α] [ExactScalar α] in
@[simp] theorem shape_toReals [Scalar α] (b : Block α) : b.toReals.shape = b.shape := by cases b <;> rfl

theorem sum_map_range (f : Nat → α) (n : Nat) :
    ((List.range n).map f).sum = ∑ i ∈ Finset.range n, f i := by
  induction n with
  | zero => rfl
  | succ n ih =>
    rw [List.range_succ, List.map_append, List.sum_append, ih, Finset.sum_range_succ]
    simp

theorem dot_eq_sum (pairs : List (α × α)) : dot pairs = (pairs.map fun p => p.1 * p.2).sum := by
  have hfold : dot pairs = (pairs.map fun p => p.1 * p.2).foldl (· + ·) Scalar.zero := by
    rw [List.foldl_map]
    rfl
  rw [hfold, Scalar.foldl_add_eq, Scalar.zero_eq, zero_add]

theorem dot_map_range (f g : Nat → α) (n : Nat) :
    dot ((List.range n).map fun i => (f i, g i)) = ∑ i ∈ Finset.range n, f i * g i := by
  rw [dot_eq_sum, List.map_map, ← sum_map_range]
  rfl

/-! ## Rows -/

theorem shape_row {b : Block α} {n : Nat} {s : Shape} (hs : b.shape = n :: s) (i : Nat) :
    (b.row i).shape = s := by
  have htail : (b.row i).shape = b.shape.tail := by
    cases b <;> rfl
  rw [htail, hs, List.tail_cons]

theorem entry_toReals_row {b : Block α} {n : Nat} {s : Shape} (hs : b.shape = n :: s) {i : Nat}
    (hi : i < n) {k : Nat} (hk : k < s.volume) :
    (b.row i).toReals.entry k = b.toReals.entry (i * s.volume + k) := by
  have hcell : i * s.volume + k < n * s.volume := Shape.cell_lt hi hk
  cases b with
  | bools t =>
    have ht : t.shape = n :: s := hs
    simp only [row, lift, toReals]
    rw [Tensor.entry_map (by simpa [ht] using hk), Tensor.entry_row ht i hk,
      Tensor.entry_map (by simpa [ht] using hcell)]
  | ints t =>
    have ht : t.shape = n :: s := hs
    simp only [row, lift, toReals]
    rw [Tensor.entry_map (by simpa [ht] using hk), Tensor.entry_row ht i hk,
      Tensor.entry_map (by simpa [ht] using hcell)]
  | reals t => exact Tensor.entry_row hs i hk

/-- The rows of a matrix. -/
theorem entry_toReals_matrix_row {b : Block α} {n width : Nat} (hs : b.shape = [n, width]) {i : Nat}
    (hi : i < n) {k : Nat} (hk : k < width) :
    (b.row i).toReals.entry k = b.toReals.entry (i * width + k) := by
  have hentry := entry_toReals_row hs hi ((Shape.volume_row width).symm ▸ hk)
  rwa [Shape.volume_row] at hentry

theorem take?_reals {access : Access} {t : Tensor α} {n place : Nat} {s : Shape}
    {index : Tensor Int} (hs : t.shape = n :: s) (hindex : index.shape = [])
    (hplace : access.locate n (index.entry 0) = some place) :
    ∃ u, (reals t).take? access (.ints index) = some (.reals u) ∧ u.shape = s ∧
      ∀ k, k < s.volume → u.entry k = t.entry (place * s.volume + k) := by
  obtain ⟨u, hu, hshape, hentry⟩ := Tensor.take?_scalar hs hindex hplace
  exact ⟨u, by simp [take?, asIndex?, lift?, hu], hshape, hentry⟩

omit [LinearOrder α] [ExactScalar α] in
theorem widest_eq {bs : List (Block α)} {k : Kind} (hne : bs ≠ []) (h : ∀ b ∈ bs, b.kind = k) :
    widest bs = k := by
  have go : ∀ bs : List (Block α), (∀ b ∈ bs, b.kind = k) →
      bs.foldl (fun k b => Kind.join k b.kind) k = k := by
    intro bs
    induction bs with
    | nil => simp
    | cons b bs ih =>
      intro h
      rw [List.foldl_cons, h b (by simp), show Kind.join k k = k by cases k <;> rfl]
      exact ih fun c hc => h c (by simp [hc])
  cases bs with
  | nil => exact absurd rfl hne
  | cons b bs =>
    rw [widest, List.foldl_cons, h b (by simp), show Kind.join .bool k = k by cases k <;> rfl]
    exact go bs fun c hc => h c (by simp [hc])

theorem stack?_reals {ts : List (Tensor α)} {s : Shape} (hne : ts ≠ [])
    (hs : ∀ t ∈ ts, t.shape = s) :
    ∃ u, stack? (ts.map Block.reals) = some (.reals u) ∧ u.shape = ts.length :: s ∧
      ∀ i (hi : i < ts.length) k, k < s.volume →
        u.entry (i * s.volume + k) = (ts[i]).entry k := by
  obtain ⟨u, hu, hshape, hentry⟩ := Tensor.stack?_of_shape hne hs
  refine ⟨u, ?_, hshape, hentry⟩
  have hmap : (ts.map Block.reals).map toReals = ts := by
    rw [List.map_map]
    exact List.map_id _
  rw [stack?, gather?, widest_eq (k := .real) (by simpa using hne) (by simp [kind]), hmap, hu]
  rfl

theorem stack?_ints {ts : List (Tensor Int)} {s : Shape} (hne : ts ≠ [])
    (hs : ∀ t ∈ ts, t.shape = s) :
    ∃ u, stack? (ts.map (Block.ints (α := α))) = some (.ints u) ∧ u.shape = ts.length :: s ∧
      ∀ i (hi : i < ts.length) k, k < s.volume →
        u.entry (i * s.volume + k) = (ts[i]).entry k := by
  obtain ⟨u, hu, hshape, hentry⟩ := Tensor.stack?_of_shape hne hs
  refine ⟨u, ?_, hshape, hentry⟩
  have hmap : (ts.map (Block.ints (α := α))).map toInts = ts := by
    rw [List.map_map]
    exact List.map_id _
  rw [stack?, gather?, widest_eq (k := .int) (by simpa using hne) (by simp [kind]), hmap, hu]
  rfl

/-- The block holds scalars under a shape, with given entries. -/
def Tabulates (b : Block α) (s : Shape) (F : Nat → α) : Prop :=
  ∃ t, b = .reals t ∧ t.shape = s ∧ ∀ k, k < s.volume → t.entry k = F k

/-- The block is a single index. -/
def Indexes (b : Block α) (i : Int) : Prop :=
  ∃ t, b = .ints t ∧ t.shape = [] ∧ t.entry 0 = i

omit [LinearOrder α] [ExactScalar α] in
/-- Blocks that are described one by one, as images of tensors. -/
theorem exists_map_of_forall₂ {β : Type} {wrap : Tensor β → Block α} {Q : Nat → Tensor β → Prop}
    {n : Nat} {bs : List (Block α)}
    (h : List.Forall₂ (fun i b => ∃ t, b = wrap t ∧ Q i t) (List.range n) bs) :
    ∃ ts : List (Tensor β), bs = ts.map wrap ∧ ts.length = n ∧
      ∀ i (hi : i < ts.length), Q i (ts[i]) := by
  have go : ∀ {is bs}, List.Forall₂ (fun i b => ∃ t, b = wrap t ∧ Q i t) is bs →
      ∃ ts : List (Tensor β), bs = ts.map wrap ∧ List.Forall₂ Q is ts := by
    intro is bs h
    induction h with
    | nil => exact ⟨[], rfl, .nil⟩
    | cons h _ ih =>
      obtain ⟨t, rfl, ht⟩ := h
      obtain ⟨ts, rfl, hts⟩ := ih
      exact ⟨t :: ts, rfl, .cons ht hts⟩
  obtain ⟨ts, hbs, hts⟩ := go h
  have hlength : n = ts.length := by simpa using hts.length_eq
  refine ⟨ts, hbs, hlength.symm, fun i hi => ?_⟩
  have := hts.get (by simpa [hlength] using hi) hi
  simpa using this

theorem stack?_tabulates {n : Nat} {s : Shape} {F : Nat → Nat → α} {l : List (Block α)}
    (hn : 0 < n) (h : List.Forall₂ (fun i b => Tabulates b s (F i)) (List.range n) l) :
    ∃ u, stack? l = some (.reals u) ∧ u.shape = n :: s ∧
      ∀ i, i < n → ∀ k, k < s.volume → u.entry (i * s.volume + k) = F i k := by
  obtain ⟨ts, rfl, rfl, hspec⟩ := exists_map_of_forall₂ h
  have hshape : ∀ t ∈ ts, t.shape = s := by
    intro t ht
    obtain ⟨i, hi, rfl⟩ := List.getElem_of_mem ht
    exact (hspec i hi).1
  obtain ⟨u, hu, hushape, hentry⟩ := stack?_reals (List.ne_nil_of_length_pos hn) hshape
  refine ⟨u, hu, hushape, fun i hi k hk => ?_⟩
  rw [hentry i hi k hk, (hspec i hi).2 k hk]

theorem stack?_indexes {n : Nat} {F : Nat → Int} {l : List (Block α)} (hn : 0 < n)
    (h : List.Forall₂ (fun i b => Indexes b (F i)) (List.range n) l) :
    ∃ u, stack? l = some (.ints u) ∧ u.shape = [n] ∧ ∀ i, i < n → u.entry i = F i := by
  obtain ⟨ts, rfl, rfl, hspec⟩ := exists_map_of_forall₂ h
  have hshape : ∀ t ∈ ts, t.shape = [] := by
    intro t ht
    obtain ⟨i, hi, rfl⟩ := List.getElem_of_mem ht
    exact (hspec i hi).1
  obtain ⟨u, hu, hushape, hentry⟩ := stack?_ints (α := α) (List.ne_nil_of_length_pos hn) hshape
  refine ⟨u, hu, hushape, fun i hi => ?_⟩
  have := hentry i hi 0 (by simp)
  rwa [Shape.volume_nil, Nat.mul_one, Nat.add_zero, (hspec i hi).2] at this

/-! ## Rows added in place -/

/-- Additions made one after another where a condition holds, read through an additive map. -/
theorem foldl_add_image {β : Type} {add : β → β → β} {φ : β → α} (hφ : ∀ x y, φ (add x y) = φ x + φ y)
    (f : Nat → β) (P : Nat → Prop) [DecidablePred P] (n : Nat) (x : β) :
    φ ((List.range n).foldl (fun cell i => if P i then add cell (f i) else cell) x) =
      φ x + ∑ i ∈ Finset.range n, if P i then φ (f i) else 0 := by
  induction n with
  | zero => simp
  | succ n ih =>
    rw [List.range_succ, List.foldl_append, Finset.sum_range_succ, ← add_assoc, ← ih]
    by_cases h : P n
    · simp [h, hφ]
    · simp [h]

/-- What stands in a cell after additions is what stood there, and what was added to it. -/
theorem entry_putAdd_image {β : Type} [Inhabited β] {add : β → β → β} {φ : β → α}
    (hφ : ∀ x y, φ (add x y) = φ x + φ y) {t rows : Tensor β} {index : Tensor Int} {n m : Nat}
    {s : Shape} (ht : t.shape = n :: s) (hsize : index.cells.size = m) {k : Nat}
    (hk : k < n * s.volume) :
    φ ((t.putAdd add index rows).entry k) = φ (t.entry k) + ∑ i ∈ Finset.range m,
      if target n (index.entry i) = some (k / s.volume) then φ (rows.entry (i * s.volume + k % s.volume))
      else 0 := by
  rw [Tensor.entry_putAdd ht hsize hk]
  exact foldl_add_image hφ _ (fun i => target n (index.entry i) = some (k / s.volume)) m _

/-- Rows that fit are added as they are; where there are no cells, nothing changes. -/
theorem putAdd?_of_shape {b rows : Block α} {index : Tensor Int} {n m : Nat} {s : Shape}
    (hb : b.shape = n :: s) (hindex : index.shape = [m]) (hrows : rows.shape = m :: s) :
    b.putAdd? (.ints index) rows = some (if m * s.volume = 0 then b else
      cast b.kind (match Kind.join b.kind rows.kind with
        | .bool => bools (b.toBools.putAdd or index rows.toBools)
        | .int => ints (b.toInts.putAdd (fun i j => Scalar.wrap α (i + j)) index rows.toInts)
        | .real => reals (b.toReals.putAdd (· + ·) index rows.toReals))) := by
  have hshape : index.shape ++ b.shape.tail = m :: s := by
    rw [hindex, hb]
    rfl
  have hne : b.shape ≠ [] := by simp [hb]
  have hbroad : ∀ {γ : Type} [Inhabited γ] {t : Tensor γ}, t.shape = rows.shape →
      t.broadcast? (m :: s) = some t := by
    intro γ _ t ht
    rw [← hrows, ← ht]
    exact t.broadcast?_self
  have hbools : rows.toBools.broadcast? (m :: s) = some rows.toBools := hbroad (by cases rows <;> rfl)
  have hints : rows.toInts.broadcast? (m :: s) = some rows.toInts := hbroad (by cases rows <;> rfl)
  have hreals : rows.toReals.broadcast? (m :: s) = some rows.toReals := hbroad rows.shape_toReals
  simp only [putAdd?, update?, asIndex?, Option.bind_eq_bind, Option.bind_some, hshape, if_neg hne,
    Shape.volume_cons]
  split
  · rfl
  · cases Kind.join b.kind rows.kind <;> simp [hbools, hints, hreals]

/-- Where rows without cells are added, there is nothing to sum. -/
theorem sum_of_no_cells {n m width k : Nat} (h : m * width = 0) (hk : k < n * width) (f : Nat → α) :
    ∑ i ∈ Finset.range m, f i = 0 := by
  have hwidth : 0 < width := Nat.pos_of_mul_pos_left (Nat.zero_lt_of_lt hk)
  obtain rfl : m = 0 := (Nat.mul_eq_zero.1 h).resolve_right hwidth.ne'
  exact Finset.sum_range_zero f

/-- Rows of any kind added to rows of scalars. Rows addressed twice receive both additions, and a row
addressed outside is lost. -/
theorem putAdd?_real {t : Tensor α} {rows : Block α} {index : Tensor Int} {n m : Nat} {s : Shape}
    (ht : t.shape = n :: s) (hindex : index.shape = [m]) (hrows : rows.shape = m :: s) :
    ∃ u, (reals t).putAdd? (.ints index) rows = some (.reals u) ∧ u.shape = n :: s ∧
      ∀ k, k < n * s.volume → u.entry k = t.entry k + ∑ i ∈ Finset.range m,
        if target n (index.entry i) = some (k / s.volume)
        then rows.toReals.entry (i * s.volume + k % s.volume) else 0 := by
  have hput : (reals t).putAdd? (.ints index) rows = _ := putAdd?_of_shape ht hindex hrows
  by_cases hvolume : m * s.volume = 0
  · rw [if_pos hvolume] at hput
    refine ⟨t, hput, ht, fun k hk => ?_⟩
    rw [sum_of_no_cells hvolume hk, add_zero]
  · rw [if_neg hvolume] at hput
    have hsize : index.cells.size = m := by simp [index.size_eq, hindex]
    exact ⟨t.putAdd (· + ·) index rows.toReals, hput, ht,
      fun k hk => entry_putAdd_image (φ := id) (fun _ _ => rfl) ht hsize hk⟩

/-! ## Arithmetic -/

omit [LinearOrder α] [ExactScalar α] in
@[simp] theorem kind_reals (t : Tensor α) : (reals t).kind = .real := rfl

omit [LinearOrder α] [ExactScalar α] in
@[simp] theorem toReals_reals [Scalar α] (t : Tensor α) : (reals t).toReals = t := rfl

@[simp] theorem join_real_left (k : Kind) : Kind.join .real k = .real := rfl

@[simp] theorem join_real_right (k : Kind) : Kind.join k .real = .real := by cases k <;> rfl

/-- What is added into the rows of an array of scalars does not depend on what they hold. -/
theorem putAdd?_uniform (m d : Nat) (index rows : Block α) :
    (∀ t : Tensor α, t.shape = [m, d] → (reals t).putAdd? index rows = none) ∨
      ∃ sums : Nat → α, ∀ t : Tensor α, t.shape = [m, d] →
        ∃ u, (reals t).putAdd? index rows = some (.reals u) ∧ u.shape = [m, d] ∧
          ∀ k, k < m * d → u.entry k = t.entry k + sums k := by
  have hne : ∀ t : Tensor α, t.shape = [m, d] → ¬ (reals t).shape = [] := by
    intro t ht
    rw [show (reals t).shape = [m, d] from ht]
    simp
  cases hindex : index.asIndex? with
  | none => exact .inl fun t _ => by rw [putAdd?, update?, hindex]; rfl
  | some i =>
    by_cases hvolume : Shape.volume (i.shape ++ [d]) = 0
    · refine .inr ⟨fun _ => 0, fun t ht => ⟨t, ?_, ht, fun k _ => (add_zero _).symm⟩⟩
      have hshape : (reals t).shape.tail = [d] := by rw [show (reals t).shape = [m, d] from ht]; rfl
      simp [putAdd?, update?, hindex, hne t ht, hshape, hvolume]
    · cases hbroad : rows.toReals.broadcast? (i.shape ++ [d]) with
      | none =>
        refine .inl fun t ht => ?_
        have hshape : (reals t).shape.tail = [d] := by rw [show (reals t).shape = [m, d] from ht]; rfl
        simp [putAdd?, update?, hindex, hne t ht, hshape, hvolume, kind, Kind.join, hbroad]
      | some r =>
        refine .inr ⟨fun k => ∑ j ∈ Finset.range i.cells.size,
          if target m (i.entry j) = some (k / d) then r.entry (j * d + k % d) else 0,
          fun t ht => ⟨t.putAdd (· + ·) i r, ?_, ht, fun k hk => ?_⟩⟩
        · have hshape : (reals t).shape.tail = [d] := by
            rw [show (reals t).shape = [m, d] from ht]
            rfl
          have hjoin : Kind.join (reals t).kind rows.kind = .real := rfl
          simp only [putAdd?, update?, hindex, hne t ht, hshape, hvolume, hjoin, hbroad,
            Option.bind_eq_bind, Option.bind_some, if_false]
          rfl
        · have hsum : (t.putAdd (· + ·) i r).entry k = _ :=
            entry_putAdd_image (φ := id) (fun _ _ => rfl) ht rfl (by rwa [Shape.volume_row])
          rwa [Shape.volume_row] at hsum

/-- Whatever is added into rows of scalars, they keep their shape. -/
theorem shape_putAdd? {t : Tensor α} {index rows b : Block α}
    (h : (reals t).putAdd? index rows = some b) : ∃ u, b = .reals u ∧ u.shape = t.shape := by
  obtain ⟨i, hi, h⟩ := Option.bind_eq_some_iff.1 h
  dsimp only at h
  split at h
  · cases h
  · split at h
    · cases h
      exact ⟨t, rfl, rfl⟩
    · obtain ⟨changed, hchanged, h⟩ := Option.bind_eq_some_iff.1 h
      cases h
      rw [show Kind.join (reals t).kind rows.kind = .real from rfl] at hchanged
      obtain ⟨r, -, hchanged⟩ := Option.bind_eq_some_iff.1 hchanged
      cases hchanged
      exact ⟨_, rfl, rfl⟩

omit [LinearOrder α] [ExactScalar α] in
theorem arith?_of_real [Scalar α] {logic : Option (Bool → Bool → Bool)} {whole : Int → Int → Int}
    {op : α → α → α} {a b : Block α} (h : Kind.join a.kind b.kind = .real) :
    arith? logic whole op a b = (Tensor.zipWith? op a.toReals b.toReals).map reals := by
  rw [arith?, h]

omit [LinearOrder α] [ExactScalar α] in
theorem zipWith?_of_shape [Scalar α] {f : α → α → α} {s t : Tensor α} (h : s.shape = t.shape) :
    ∃ u, Tensor.zipWith? f s t = some u ∧ u.shape = s.shape ∧
      ∀ k, k < s.shape.volume → u.entry k = f (s.entry k) (t.entry k) :=
  ⟨_, Tensor.zipWith?_of_shape_eq h, rfl, fun _ hk => Tensor.entry_generate hk⟩

omit [LinearOrder α] [ExactScalar α] in
theorem add?_reals [Scalar α] {s t : Tensor α} (h : s.shape = t.shape) :
    ∃ u, (reals s).add? (.reals t) = some (.reals u) ∧ u.shape = s.shape ∧
      ∀ k, k < s.shape.volume → u.entry k = s.entry k + t.entry k := by
  obtain ⟨u, hu, hspec⟩ := zipWith?_of_shape (f := (· + ·)) h
  refine ⟨u, ?_, hspec⟩
  rw [add?, arith?_of_real (by simp), toReals_reals, toReals_reals, hu]
  rfl

omit [LinearOrder α] [ExactScalar α] in
/-- The difference of scalars and numbers of any kind. -/
theorem sub?_reals [Scalar α] {s : Tensor α} {b : Block α} (h : s.shape = b.shape) :
    ∃ u, (reals s).sub? b = some (.reals u) ∧ u.shape = s.shape ∧
      ∀ k, k < s.shape.volume → u.entry k = s.entry k - b.toReals.entry k := by
  obtain ⟨u, hu, hspec⟩ := zipWith?_of_shape (f := (· - ·)) (h.trans b.shape_toReals.symm)
  refine ⟨u, ?_, hspec⟩
  rw [sub?, arith?_of_real (by simp), toReals_reals, hu]
  rfl

/-- A sum of scalars that starts from the integer zero. -/
theorem add?_int_zero {t : Tensor α} {n : Nat} (ht : t.shape = [n]) :
    ∃ u, (int 0 : Block α).add? (.reals t) = some (.reals u) ∧ u.shape = [n] ∧
      ∀ k, k < n → u.entry k = t.entry k := by
  obtain ⟨u, hu, hshape, hentry⟩ := Tensor.zipWith?_scalar (f := (· + ·))
    (s := (int 0 : Block α).toReals) rfl ht
  refine ⟨u, ?_, hshape, fun k hk => ?_⟩
  · rw [add?, arith?_of_real (by simp), toReals_reals, hu]
    rfl
  · rw [hentry k hk]
    simp [int, toReals, Tensor.entry, Tensor.map, Tensor.scalar]

/-- A number of any kind times a vector of scalars. -/
theorem mul?_scalar {b : Block α} {t : Tensor α} {n : Nat} (hb : b.shape = [])
    (ht : t.shape = [n]) :
    ∃ u, b.mul? (.reals t) = some (.reals u) ∧ u.shape = [n] ∧
      ∀ k, k < n → u.entry k = b.toReals.entry 0 * t.entry k := by
  obtain ⟨u, hu, hshape, hentry⟩ := Tensor.zipWith?_scalar (f := (· * ·))
    (s := b.toReals) (b.shape_toReals.trans hb) ht
  refine ⟨u, ?_, hshape, fun k hk => hentry k hk⟩
  rw [mul?, arith?_of_real (by simp), toReals_reals, hu]
  rfl

theorem sum_cells (t : Tensor α) :
    Scalar.sum t.cells = ∑ k ∈ Finset.range t.shape.volume, t.entry k := by
  rw [Scalar.sum_eq, t.toList_cells, sum_map_range]

/-- The sum of the products of paired entries, as a number added to the integer zero. -/
theorem mul?_sum {s t : Tensor α} (h : s.shape = t.shape) :
    ∃ u, (reals s).mul? (.reals t) = some u ∧ ∃ total, (int 0 : Block α).add? u.sum = some total ∧
      total.value = ∑ k ∈ Finset.range s.shape.volume, s.entry k * t.entry k := by
  obtain ⟨u, hu, hshape, hentry⟩ := zipWith?_of_shape (f := (· * ·)) h
  obtain ⟨total, htotal, hvolume, hvalue⟩ := zipWith?_of_shape (f := (· + ·))
    (s := (int 0 : Block α).toReals) (t := .scalar (Scalar.sum u.cells)) rfl
  refine ⟨.reals u, ?_, .reals total, ?_, ?_⟩
  · rw [mul?, arith?_of_real (by simp), toReals_reals, toReals_reals, hu]
    rfl
  · rw [sum, real, add?, arith?_of_real (by simp), toReals_reals, htotal]
    rfl
  · have hzero : (int 0 : Block α).toReals.entry 0 = 0 := by
      simp [int, toReals, Tensor.entry, Tensor.map, Tensor.scalar]
    have hsum : (Tensor.scalar (Scalar.sum u.cells)).entry 0 = Scalar.sum u.cells := rfl
    rw [value, toReals_reals, hvalue 0 (show 0 < 1 by omega), hzero, hsum, zero_add, sum_cells,
      hshape]
    exact Finset.sum_congr rfl fun k hk => hentry k (Finset.mem_range.1 hk)

/-! ## Products -/

theorem mulVec?_reals {a : Block α} {x : Tensor α} {m n : Nat} (ha : a.shape = [m, n])
    (hx : x.shape = [n]) :
    ∃ u, a.mulVec? (.reals x) = some (.reals u) ∧ u.shape = [m] ∧ ∀ i, i < m →
      u.entry i = ∑ j ∈ Finset.range n, a.toReals.entry (i * n + j) * x.entry j := by
  have hmul : Tensor.mulVec? dot a.toReals x = _ :=
    Tensor.mulVec?_of_shape (a.shape_toReals.trans ha) hx
  refine ⟨_, by rw [mulVec?, toReals, hmul]; rfl, rfl, fun i hi => ?_⟩
  rw [Tensor.entry_generate (by simpa using hi), dot_map_range]

theorem vecMul?_reals {y : Tensor α} {a : Block α} {m n : Nat} (hy : y.shape = [m])
    (ha : a.shape = [m, n]) :
    ∃ u, (reals y).vecMul? a = some (.reals u) ∧ u.shape = [n] ∧ ∀ j, j < n →
      u.entry j = ∑ i ∈ Finset.range m, y.entry i * a.toReals.entry (i * n + j) := by
  have hmul : Tensor.vecMul? dot y a.toReals = _ :=
    Tensor.vecMul?_of_shape hy (a.shape_toReals.trans ha)
  refine ⟨_, by rw [vecMul?, toReals, hmul]; rfl, rfl, fun j hj => ?_⟩
  rw [Tensor.entry_generate (by simpa using hj), dot_map_range]

end LeastSquares.Block
