import LeastSquares.Proofs.Array.Block

/-!
# Rows of stacked blocks

Blocks of one kind and shape can be stacked, and the rows of the stack are the blocks. What a handle
takes from a stack is a row of it. Both are equations between blocks, for cells of every kind. Blocks of
several kinds are stacked in the widest, which keeps their numbers.
-/

namespace LeastSquares

namespace Tensor

variable {β : Type} [Inhabited β]

/-- The rows of stacked tensors are the tensors. -/
theorem stack?_rows {ts : List (Tensor β)} {s : Shape} (hne : ts ≠ [])
    (hs : ∀ t ∈ ts, t.shape = s) :
    ∃ u, stack? ts = some u ∧ u.shape = ts.length :: s ∧
      ∀ i (hi : i < ts.length), u.row i = ts[i] := by
  obtain ⟨u, hu, hshape, hentry⟩ := stack?_of_shape hne hs
  refine ⟨u, hu, hshape, fun i hi => ext_entry ?_ fun k hk => ?_⟩
  · rw [shape_row, hshape, List.tail_cons, hs _ (List.getElem_mem hi)]
  · have hk : k < s.volume := by simpa [hshape] using hk
    rw [entry_row hshape i hk, hentry i hi k hk]

omit [Inhabited β] in
theorem shape_eq_of_stack? {ts : List (Tensor β)} {u : Tensor β} (h : stack? ts = some u) :
    ∃ s, ts ≠ [] ∧ ∀ t ∈ ts, t.shape = s := by
  cases ts with
  | nil => cases h
  | cons t ts =>
    by_cases hall : ((t :: ts).all fun u => decide (u.shape = t.shape)) = true
    · refine ⟨t.shape, by simp, fun v hv => ?_⟩
      simpa using List.all_eq_true.1 hall v hv
    · simp [stack?, hall] at h

/-- What is taken at a single index is a row. -/
theorem take?_row {access : Access} {t : Tensor β} {n place : Nat} {s : Shape}
    {index : Tensor Int} (hs : t.shape = n :: s) (hindex : index.shape = [])
    (hplace : access.locate n (index.entry 0) = some place) :
    t.take? access index = some (t.row place) := by
  obtain ⟨u, hu, hshape, hentry⟩ := take?_scalar hs hindex hplace
  rw [hu]
  refine congrArg some (ext_entry ?_ fun k hk => ?_)
  · rw [shape_row, hs, hshape, List.tail_cons]
  · have hk : k < s.volume := by simpa [hshape] using hk
    rw [hentry k hk, entry_row hs place hk]

/-- Tensors of one shape that have the same rows are the same. -/
theorem eq_of_rows {t u : Tensor β} {n : Nat} {s : Shape} (ht : t.shape = n :: s)
    (hu : u.shape = n :: s) (h : ∀ i, i < n → t.row i = u.row i) : t = u := by
  refine ext_entry (ht.trans hu.symm) fun k hk => ?_
  rw [ht, Shape.volume_cons] at hk
  have hvolume : 0 < s.volume := by
    refine Nat.pos_of_ne_zero fun h => ?_
    simp [h] at hk
  have hmod := Nat.mod_lt k hvolume
  have hentry := congrArg (entry · (k % s.volume)) (h _ ((Nat.div_lt_iff_lt_mul hvolume).2 hk))
  simp only [entry_row ht _ hmod, entry_row hu _ hmod] at hentry
  rwa [Nat.mul_comm, Nat.div_add_mod] at hentry

end Tensor

namespace Kind

theorem join_join_self (k x : Kind) : join (join k x) x = join k x := by
  cases k <;> cases x <;> rfl

theorem join_right_comm (j k x : Kind) : join (join j k) x = join (join j x) k := by
  cases j <;> cases k <;> cases x <;> rfl

end Kind

namespace Block

variable {α : Type} [Scalar α]

@[simp] theorem kind_row (b : Block α) (i : Nat) : (b.row i).kind = b.kind := by
  cases b <;> rfl

theorem shape_row_eq (b : Block α) (i : Nat) : (b.row i).shape = b.shape.tail := by
  cases b <;> rfl

omit [Scalar α] in
/-- Blocks that are images of tensors one by one. -/
theorem exists_map_of_kind {β : Type} (wrap : Tensor β → Block α) {bs : List (Block α)}
    (h : ∀ b ∈ bs, ∃ t, b = wrap t) : ∃ ts : List (Tensor β), bs = ts.map wrap := by
  induction bs with
  | nil => exact ⟨[], rfl⟩
  | cons b bs ih =>
    obtain ⟨t, rfl⟩ := h b (by simp)
    obtain ⟨ts, rfl⟩ := ih fun c hc => h c (by simp [hc])
    exact ⟨t :: ts, rfl⟩

theorem stack?_map {β : Type} [Inhabited β] {wrap : Tensor β → Block α} {k : Kind}
    {ts : List (Tensor β)} {s : Shape} (hne : ts ≠ [])
    (hs : ∀ b ∈ ts.map wrap, b.shape = s) (hshape : ∀ t, (wrap t).shape = t.shape)
    (hkind : ∀ t, (wrap t).kind = k) (hrow : ∀ t i, (wrap t).row i = wrap (t.row i))
    (hstack : stack? (ts.map wrap) = (Tensor.stack? ts).map wrap) :
    ∃ u, stack? (ts.map wrap) = some u ∧ u.kind = k ∧ u.shape = (ts.map wrap).length :: s ∧
      ∀ i (hi : i < (ts.map wrap).length), u.row i = (ts.map wrap)[i] := by
  have hts : ∀ t ∈ ts, t.shape = s := fun t ht => by
    rw [← hshape]
    exact hs _ (List.mem_map_of_mem ht)
  obtain ⟨u, hu, hushape, hrows⟩ := Tensor.stack?_rows hne hts
  refine ⟨wrap u, by rw [hstack, hu]; rfl, hkind u, by rw [hshape, hushape, List.length_map],
    fun i hi => ?_⟩
  rw [hrow, hrows i (by simpa using hi), List.getElem_map]

/-- Blocks of one kind and shape as rows of a block. -/
theorem stack?_rows {bs : List (Block α)} {k : Kind} {s : Shape} (hne : bs ≠ [])
    (hk : ∀ b ∈ bs, b.kind = k) (hs : ∀ b ∈ bs, b.shape = s) :
    ∃ u, stack? bs = some u ∧ u.kind = k ∧ u.shape = bs.length :: s ∧
      ∀ i (hi : i < bs.length), u.row i = bs[i] := by
  have hwide := widest_eq hne hk
  cases k with
  | bool =>
    obtain ⟨ts, rfl⟩ := exists_map_of_kind bools fun b hb => by
      cases b <;> first | exact ⟨_, rfl⟩ | cases hk _ hb
    refine stack?_map (by simpa using hne) hs (fun _ => rfl) (fun _ => rfl) (fun _ _ => rfl) ?_
    rw [stack?, gather?, hwide, List.map_map]
    simp [Function.comp_def, toBools]
  | int =>
    obtain ⟨ts, rfl⟩ := exists_map_of_kind ints fun b hb => by
      cases b <;> first | exact ⟨_, rfl⟩ | cases hk _ hb
    refine stack?_map (by simpa using hne) hs (fun _ => rfl) (fun _ => rfl) (fun _ _ => rfl) ?_
    rw [stack?, gather?, hwide, List.map_map]
    simp [Function.comp_def, toInts]
  | real =>
    obtain ⟨ts, rfl⟩ := exists_map_of_kind reals fun b hb => by
      cases b <;> first | exact ⟨_, rfl⟩ | cases hk _ hb
    refine stack?_map (by simpa using hne) hs (fun _ => rfl) (fun _ => rfl) (fun _ _ => rfl) ?_
    rw [stack?, gather?, hwide, List.map_map]
    simp [Function.comp_def, toReals]

/-- Blocks of one kind and shape that have the same rows are the same. -/
theorem eq_of_rows {b c : Block α} {n : Nat} {s : Shape} (hkind : b.kind = c.kind)
    (hb : b.shape = n :: s) (hc : c.shape = n :: s) (h : ∀ i, i < n → b.row i = c.row i) : b = c := by
  cases b with
  | bools t =>
    cases c with
    | bools u => exact congrArg bools (Tensor.eq_of_rows hb hc fun i hi => bools.inj (h i hi))
    | ints | reals => cases hkind
  | ints t =>
    cases c with
    | ints u => exact congrArg ints (Tensor.eq_of_rows hb hc fun i hi => ints.inj (h i hi))
    | bools | reals => cases hkind
  | reals t =>
    cases c with
    | reals u => exact congrArg reals (Tensor.eq_of_rows hb hc fun i hi => reals.inj (h i hi))
    | bools | ints => cases hkind

/-- Blocks that can be stacked have one shape. -/
theorem shape_eq_of_stack? {bs : List (Block α)} {u : Block α} (h : stack? bs = some u) :
    ∃ s, bs ≠ [] ∧ ∀ b ∈ bs, b.shape = s := by
  have hshape : ∀ {β : Type} [Inhabited β] {f : Block α → Tensor β},
      (∀ b, (f b).shape = b.shape) → (∃ t, Tensor.stack? (bs.map f) = some t) →
      ∃ s, bs ≠ [] ∧ ∀ b ∈ bs, b.shape = s := by
    rintro β _ f hf ⟨t, ht⟩
    obtain ⟨s, hne, hs⟩ := Tensor.shape_eq_of_stack? ht
    refine ⟨s, by simpa using hne, fun b hb => ?_⟩
    rw [← hf]
    exact hs _ (List.mem_map_of_mem hb)
  rw [stack?, gather?] at h
  split at h
  · obtain ⟨t, ht, -⟩ := Option.map_eq_some_iff.1 h
    exact hshape (fun b => by cases b <;> rfl) ⟨t, ht⟩
  · obtain ⟨t, ht, -⟩ := Option.map_eq_some_iff.1 h
    exact hshape (fun b => by cases b <;> rfl) ⟨t, ht⟩
  · obtain ⟨t, ht, -⟩ := Option.map_eq_some_iff.1 h
    exact hshape (fun b => by cases b <;> rfl) ⟨t, ht⟩

theorem take?_row {access : Access} {b : Block α} {n place : Nat} {s : Shape} {index : Tensor Int}
    (hs : b.shape = n :: s) (hindex : index.shape = [])
    (hplace : access.locate n (index.entry 0) = some place) :
    b.take? access (.ints index) = some (b.row place) := by
  cases b with
  | bools t => simp [take?, asIndex?, lift?, row, lift, Tensor.take?_row hs hindex hplace]
  | ints t => simp [take?, asIndex?, lift?, row, lift, Tensor.take?_row hs hindex hplace]
  | reals t => simp [take?, asIndex?, lift?, row, lift, Tensor.take?_row hs hindex hplace]

/-! ## Rows of several kinds -/

omit [Scalar α] in
/-- Every block has a kind that is at most the widest. -/
theorem join_widest {bs : List (Block α)} {b : Block α} (hb : b ∈ bs) :
    Kind.join (widest bs) b.kind = widest bs := by
  have hkeep : ∀ (bs : List (Block α)) (k x : Kind), Kind.join k x = k →
      Kind.join (bs.foldl (fun k b => Kind.join k b.kind) k) x =
        bs.foldl (fun k b => Kind.join k b.kind) k := by
    intro bs
    induction bs with
    | nil => exact fun _ _ h => h
    | cons b bs ih => exact fun k x h => ih _ x (by rw [Kind.join_right_comm, h])
  have hfold : ∀ (bs : List (Block α)) (k : Kind), b ∈ bs →
      Kind.join (bs.foldl (fun k b => Kind.join k b.kind) k) b.kind =
        bs.foldl (fun k b => Kind.join k b.kind) k := by
    intro bs
    induction bs with
    | nil => simp
    | cons c bs ih =>
      intro k hb
      rcases List.mem_cons.1 hb with rfl | hb
      · exact hkeep bs _ _ (Kind.join_join_self k b.kind)
      · exact ih _ hb
  exact hfold bs .bool hb

/-- A wider kind keeps the numbers. -/
theorem toReals_cast {b : Block α} {k : Kind} (h : Kind.join k b.kind = k) :
    (b.cast k).toReals = b.toReals := by
  cases k with
  | bool =>
    cases b with
    | bools t => rfl
    | ints | reals => cases h
  | int =>
    cases b with
    | bools t =>
      show (t.map fun b => if b then (1 : Int) else 0).map Scalar.ofInt =
        t.map fun b => Scalar.ofInt (if b then 1 else 0)
      simp [Tensor.map, Function.comp_def]
    | ints t => rfl
    | reals => cases h
  | real => rfl

theorem shape_cast (b : Block α) (k : Kind) : (b.cast k).shape = b.shape := by
  cases b <;> cases k <;> rfl

theorem kind_cast (b : Block α) (k : Kind) : (b.cast k).kind = k := by
  cases k <;> rfl

/-- Blocks are stacked in the widest of their kinds. -/
theorem stack?_cast (bs : List (Block α)) : stack? bs = stack? (bs.map (cast (widest bs))) := by
  rcases eq_or_ne bs [] with rfl | hne
  · rfl
  have hwide : widest (bs.map (cast (widest bs))) = widest bs :=
    widest_eq (by simpa using hne) (List.forall_mem_map.2 fun b _ => kind_cast b _)
  rw [stack?, stack?, gather?, gather?, hwide]
  cases widest bs <;> dsimp only <;> rw [List.map_map] <;> rfl

/-- Blocks of one shape as rows of a block, whatever their kinds: the numbers are the same. -/
theorem stack?_numbers {bs : List (Block α)} {s : Shape} (hne : bs ≠ []) (hs : ∀ b ∈ bs, b.shape = s) :
    ∃ u, stack? bs = some u ∧ u.shape = bs.length :: s ∧
      ∀ i (hi : i < bs.length), (u.row i).toReals = (bs[i]).toReals := by
  have hkinds : ∀ b ∈ bs.map (cast (widest bs)), b.kind = widest bs :=
    List.forall_mem_map.2 fun b _ => kind_cast b _
  obtain ⟨u, hu, -, hshape, hrows⟩ := stack?_rows (by simpa using hne) hkinds
    (List.forall_mem_map.2 fun b hb => (shape_cast b _).trans (hs b hb))
  refine ⟨u, (stack?_cast bs).trans hu, by simpa using hshape, fun i hi => ?_⟩
  rw [hrows i (by simpa using hi), List.getElem_map, toReals_cast (join_widest (List.getElem_mem hi))]

end Block

end LeastSquares
