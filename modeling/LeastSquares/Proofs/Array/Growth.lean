import LeastSquares.Proofs.Array.Rows

/-!
# Rows appended and replaced

A block whose rows have some kind and shape takes one more row of that kind and shape at its end, or in
the place of another. The other rows stay what they are. Both are equations between blocks, for cells
of every kind.
-/

namespace LeastSquares

namespace Tensor

variable {β : Type} [Inhabited β]

/-- The rows of a tensor to which one more is appended. -/
theorem append?_rows {a b : Tensor β} {n : Nat} {s : Shape} (ha : a.shape = n :: s)
    (hb : b.shape = s) :
    ∃ u, append? a b.lifted = some u ∧ u.shape = (n + 1) :: s ∧
      (∀ i, i < n → u.row i = a.row i) ∧ u.row n = b := by
  have hasize : a.cells.size = n * s.volume := by rw [a.size_eq, ha, Shape.volume_cons]
  have hbsize : b.cells.size = s.volume := by rw [b.size_eq, hb]
  have hsize : (a.cells ++ b.cells).size = Shape.volume ((n + 1) :: s) := by
    rw [Array.size_append, hasize, hbsize, Shape.volume_cons, Nat.succ_mul]
  refine ⟨⟨(n + 1) :: s, _, hsize⟩, ?_, rfl, fun i hi => ext_entry ?_ fun k hk => ?_,
    ext_entry hb.symm fun k hk => ?_⟩
  · have hlifted : b.lifted.shape = 1 :: s := congrArg (1 :: ·) hb
    simp only [append?, ha, hlifted, if_true]
    rw [ofCells?, dif_pos (by exact hsize)]
    rfl
  · rw [shape_row, shape_row, ha]
    rfl
  · have hk : k < s.volume := hk
    have hcell := Shape.cell_lt hi hk
    rw [entry_row rfl i hk, entry_row ha i hk, entry, entry, Array.getD_eq_getD_getElem?,
      Array.getD_eq_getD_getElem?, Array.getElem?_append_left (by omega)]
  · have hk : k < s.volume := hk
    rw [entry_row rfl n hk, entry, entry, Array.getD_eq_getD_getElem?, Array.getD_eq_getD_getElem?,
      Array.getElem?_append_right (by omega), hasize, Nat.add_sub_cancel_left]

/-- The only row. -/
theorem row_lifted (t : Tensor β) : t.lifted.row 0 = t :=
  ext_entry rfl fun k hk => by
    rw [entry_row rfl 0 hk, Nat.zero_mul, Nat.zero_add]
    rfl

theorem row_map {γ : Type} [Inhabited γ] {f : β → γ} {t : Tensor β} {n : Nat} {s : Shape}
    (ht : t.shape = n :: s) {i : Nat} (hi : i < n) : (t.map f).row i = (t.row i).map f := by
  have hmap : (t.map f).shape = n :: s := ht
  have hrow : (t.row i).shape = s := by rw [shape_row, ht, List.tail_cons]
  refine ext_entry (by rw [shape_row, shape_map, shape_map, shape_row]) fun k hk => ?_
  have hk : k < s.volume := by rwa [shape_row, hmap, List.tail_cons] at hk
  rw [entry_row hmap i hk, entry_map (by rw [ht]; exact Shape.cell_lt hi hk),
    entry_map (by rwa [hrow]), entry_row ht i hk]

/-- The rows of a tensor in which one is replaced. -/
theorem put_rows {t rows : Tensor β} {index : Tensor Int} {n place : Nat} {s : Shape}
    (ht : t.shape = n :: s) (hindex : index.shape = []) (hplace : target n (index.entry 0) = some place)
    (hrows : rows.shape = s) :
    (t.put index rows).shape = n :: s ∧ (place < n → (t.put index rows).row place = rows) ∧
      ∀ i, i < n → i ≠ place → (t.put index rows).row i = t.row i := by
  have hsize : index.cells.size = 1 := by rw [index.size_eq, hindex, Shape.volume_nil]
  have hshape : (t.put index rows).shape = n :: s := ht
  have hentry : ∀ i k, i < n → k < s.volume → (t.put index rows).entry (i * s.volume + k) =
      if place = i then rows.entry k else t.entry (i * s.volume + k) := by
    intro i k hi hk
    have hfirst : target n (index.cells.getD 0 default) = some place := hplace
    rw [Array.getD_eq_getD_getElem?] at hfirst
    rw [put, entry_generate (by rw [ht]; exact Shape.cell_lt hi hk)]
    simp only [Array.size_map, hsize, count, rowVolume, ht, List.headD_cons, List.tail_cons,
      List.range_one, List.foldl_cons, List.foldl_nil, Shape.cell_div hk, Shape.cell_mod hk,
      Nat.zero_mul, Nat.zero_add]
    have hget : (index.cells.map (target n)).getD 0 none = some place := by
      have h0 : 0 < index.cells.size := by omega
      rw [Array.getElem?_eq_getElem h0] at hfirst
      simpa [h0] using hfirst
    rw [hget]
    simp
  refine ⟨hshape, fun hp => ext_entry ?_ fun k hk => ?_, fun i hi hne => ext_entry ?_ fun k hk => ?_⟩
  · rw [shape_row, hshape, hrows, List.tail_cons]
  · have hk : k < s.volume := by simpa [hshape] using hk
    rw [entry_row hshape place hk, hentry place k hp hk, if_pos rfl]
  · rw [shape_row, shape_row, hshape, ht]
  · have hk : k < s.volume := by simpa [hshape] using hk
    rw [entry_row hshape i hk, hentry i k hi hk, if_neg (Ne.symm hne), entry_row ht i hk]

end Tensor

namespace Block

variable {α : Type} [Scalar α]

theorem row_lifted (b : Block α) : b.lifted.row 0 = b := by
  cases b with
  | bools t => exact congrArg bools t.row_lifted
  | ints t => exact congrArg ints t.row_lifted
  | reals t => exact congrArg reals t.row_lifted

theorem append?_rows {a b : Block α} {n : Nat} {s : Shape} (hkind : b.kind = a.kind)
    (ha : a.shape = n :: s) (hb : b.shape = s) :
    ∃ u, append? a b.lifted = some u ∧ u.kind = a.kind ∧ u.shape = (n + 1) :: s ∧
      (∀ i, i < n → u.row i = a.row i) ∧ u.row n = b := by
  cases a with
  | bools t =>
    cases b with
    | bools r =>
      obtain ⟨u, hu, hshape, hrows, hlast⟩ := Tensor.append?_rows ha hb
      exact ⟨bools u, congrArg (Option.map bools) hu, rfl, hshape,
        fun i hi => congrArg bools (hrows i hi), congrArg bools hlast⟩
    | ints | reals => cases hkind
  | ints t =>
    cases b with
    | ints r =>
      obtain ⟨u, hu, hshape, hrows, hlast⟩ := Tensor.append?_rows ha hb
      exact ⟨ints u, congrArg (Option.map ints) hu, rfl, hshape,
        fun i hi => congrArg ints (hrows i hi), congrArg ints hlast⟩
    | bools | reals => cases hkind
  | reals t =>
    cases b with
    | reals r =>
      obtain ⟨u, hu, hshape, hrows, hlast⟩ := Tensor.append?_rows ha hb
      exact ⟨reals u, congrArg (Option.map reals) hu, rfl, hshape,
        fun i hi => congrArg reals (hrows i hi), congrArg reals hlast⟩
    | bools | ints => cases hkind

/-- A row replaced in a block, told of the tensors of which the blocks are made. -/
theorem put?_map {β : Type} [Inhabited β] {wrap : Tensor β → Block α} {t rows : Tensor β}
    {index : Tensor Int} {n place : Nat} {s : Shape} (ht : t.shape = n :: s) (hrows : rows.shape = s)
    (hindex : index.shape = []) (hplace : target n (index.entry 0) = some place)
    (hshape : ∀ t, (wrap t).shape = t.shape) (hrow : ∀ t i, (wrap t).row i = wrap (t.row i))
    (hkind : ∀ t u, (wrap t).kind = (wrap u).kind)
    (hput : rows.broadcast? s = some rows → s.volume ≠ 0 →
      (wrap t).put? (.ints index) (wrap rows) = some (wrap (t.put index rows))) :
    ∃ u, (wrap t).put? (.ints index) (wrap rows) = some u ∧ u.kind = (wrap t).kind ∧
      u.shape = n :: s ∧ (place < n → u.row place = wrap rows) ∧
      ∀ i, i < n → i ≠ place → u.row i = (wrap t).row i := by
  by_cases hvolume : s.volume = 0
  · -- rows without cells are told by their shape
    have hsame : (wrap t).put? (.ints index) (wrap rows) = some (wrap t) := by
      simp [put?, update?, asIndex?, hshape, ht, hindex, hvolume]
    refine ⟨wrap t, hsame, rfl, (hshape t).trans ht, fun _ => ?_, fun _ _ _ => rfl⟩
    rw [hrow]
    refine congrArg wrap (Tensor.ext_entry ?_ fun k hk => ?_)
    · rw [Tensor.shape_row, ht, hrows, List.tail_cons]
    · rw [Tensor.shape_row, ht, List.tail_cons, hvolume] at hk
      exact absurd hk (Nat.not_lt_zero k)
  · have hbroad : rows.broadcast? s = some rows := by
      rw [← hrows]
      exact rows.broadcast?_self
    obtain ⟨hushape, hplaced, hother⟩ := Tensor.put_rows ht hindex hplace hrows
    refine ⟨_, hput hbroad hvolume, hkind _ _, (hshape _).trans hushape, fun h => ?_,
      fun i hi hne => ?_⟩
    · rw [hrow, hplaced h]
    · rw [hrow, hrow, hother i hi hne]

/-- Changing the rows that an index names, where it asks for some cells. -/
theorem update?_eq {b r : Block α} {index : Tensor Int} {n : Nat} {s : Shape}
    (hindex : index.shape = []) (hb : b.shape = n :: s) (hvolume : s.volume ≠ 0)
    (change : Kind → Tensor Int → Shape → Option (Block α)) :
    update? b (.ints index) r change =
      (change (Kind.join b.kind r.kind) index s).map (cast b.kind) := by
  simp only [update?, asIndex?, hindex, hb, List.nil_append, List.tail_cons, hvolume,
    Option.bind_eq_bind, Option.bind_some, if_false, reduceCtorEq]
  cases change (Kind.join b.kind r.kind) index s <;> rfl

theorem put?_rows {b r : Block α} {index : Tensor Int} {n place : Nat} {s : Shape}
    (hkind : r.kind = b.kind) (hb : b.shape = n :: s) (hr : r.shape = s)
    (hindex : index.shape = []) (hplace : target n (index.entry 0) = some place) :
    ∃ u, b.put? (.ints index) r = some u ∧ u.kind = b.kind ∧ u.shape = n :: s ∧
      (place < n → u.row place = r) ∧ ∀ i, i < n → i ≠ place → u.row i = b.row i := by
  cases b with
  | bools t =>
    cases r with
    | bools rows =>
      refine put?_map hb hr hindex hplace (fun _ => rfl) (fun _ _ => rfl) (fun _ _ => rfl)
        fun hbroad hvolume => ?_
      rw [put?, update?_eq hindex hb hvolume, gather?]
      simp [widest, kind, Kind.join, toBools, hbroad, cast]
    | ints | reals => cases hkind
  | ints t =>
    cases r with
    | ints rows =>
      refine put?_map hb hr hindex hplace (fun _ => rfl) (fun _ _ => rfl) (fun _ _ => rfl)
        fun hbroad hvolume => ?_
      rw [put?, update?_eq hindex hb hvolume, gather?]
      simp [widest, kind, Kind.join, toInts, hbroad, cast]
    | bools | reals => cases hkind
  | reals t =>
    cases r with
    | reals rows =>
      refine put?_map hb hr hindex hplace (fun _ => rfl) (fun _ _ => rfl) (fun _ _ => rfl)
        fun hbroad hvolume => ?_
      rw [put?, update?_eq hindex hb hvolume, gather?]
      simp [widest, kind, Kind.join, toReals, hbroad, cast]
    | bools | ints => cases hkind

/-! ## Rows of several kinds -/

theorem cast_self (b : Block α) : b.cast b.kind = b := by
  cases b <;> rfl

theorem cast_cast {b : Block α} {j k : Kind} (hj : Kind.join j b.kind = j) (hk : Kind.join k j = k) :
    (b.cast j).cast k = b.cast k := by
  cases j with
  | bool =>
    cases b with
    | bools t => rfl
    | ints | reals => cases hj
  | int =>
    cases k with
    | bool => cases hk
    | int => rfl
    | real => exact congrArg reals (toReals_cast hj)
  | real =>
    cases k with
    | bool | int => cases hk
    | real => rfl

theorem row_cast {b : Block α} {n : Nat} {s : Shape} (hb : b.shape = n :: s) (k : Kind) {i : Nat}
    (hi : i < n) : (b.cast k).row i = (b.row i).cast k := by
  cases b with
  | bools t =>
    cases k with
    | bool => rfl
    | int => exact congrArg ints (Tensor.row_map hb hi)
    | real => exact congrArg reals (Tensor.row_map hb hi)
  | ints t =>
    cases k with
    | bool => exact congrArg bools (Tensor.row_map hb hi)
    | int => rfl
    | real => exact congrArg reals (Tensor.row_map hb hi)
  | reals t =>
    cases k with
    | bool => exact congrArg bools (Tensor.row_map hb hi)
    | int => exact congrArg ints (Tensor.row_map hb hi)
    | real => rfl

theorem row_scaled {b : Block α} {n : Nat} {s : Shape} (hb : b.shape = n :: s) (x : α) {i : Nat}
    (hi : i < n) : (b.scaled x).row i = (b.row i).scaled x := by
  have hreals : b.toReals.row i = (b.row i).toReals := by
    cases b with
    | bools t => exact Tensor.row_map hb hi
    | ints t => exact Tensor.row_map hb hi
    | reals t => rfl
  have hshape : b.toReals.shape = n :: s := (shape_toReals b).trans hb
  show reals ((b.toReals.map (x * ·)).row i) = reals ((b.row i).toReals.map (x * ·))
  rw [Tensor.row_map hshape hi, hreals]

/-- A row is appended in the wider kind. -/
theorem append?_cast (a b : Block α) : append? a b.lifted =
    append? (a.cast (a.kind.join b.kind)) (b.cast (a.kind.join b.kind)).lifted := by
  cases a <;> cases b <;> rfl

/-- Blocks of one shape as rows of a block of the widest kind. -/
theorem stack?_widest {bs : List (Block α)} {s : Shape} (hne : bs ≠ []) (hs : ∀ b ∈ bs, b.shape = s) :
    ∃ u, stack? bs = some u ∧ u.kind = widest bs ∧ u.shape = bs.length :: s ∧
      ∀ i (hi : i < bs.length), u.row i = (bs[i]).cast (widest bs) := by
  have hkinds : ∀ b ∈ bs.map (cast (widest bs)), b.kind = widest bs :=
    List.forall_mem_map.2 fun b _ => kind_cast b _
  obtain ⟨u, hu, hkind, hshape, hrows⟩ := stack?_rows (by simpa using hne) hkinds
    (List.forall_mem_map.2 fun b hb => (shape_cast b _).trans (hs b hb))
  refine ⟨u, (stack?_cast bs).trans hu, hkind, by simpa using hshape, fun i hi => ?_⟩
  rw [hrows i (by simpa using hi), List.getElem_map]

theorem stack?_singleton (b : Block α) : stack? [b] = some b.lifted := by
  have hkind : b.lifted.kind = b.kind := by cases b <;> rfl
  have hshape : b.lifted.shape = 1 :: b.shape := by cases b <;> rfl
  obtain ⟨u, hu, hukind, hushape, hrows⟩ := stack?_rows (List.cons_ne_nil b [])
    (k := b.kind) (s := b.shape) (by simp) (by simp)
  refine hu.trans (congrArg some (eq_of_rows (hukind.trans hkind.symm) hushape hshape fun i hi => ?_))
  obtain rfl : i = 0 := by simpa using hi
  rw [hrows 0 hi, row_lifted]
  rfl

/-- Appending a row to a stack is stacking one more block. -/
theorem append?_of_stack? {bs : List (Block α)} {b u : Block α} (h : stack? bs = some u)
    (hs : ∀ c ∈ bs, c.shape = b.shape) : append? u b.lifted = stack? (bs ++ [b]) := by
  obtain ⟨-, hne, -⟩ := shape_eq_of_stack? h
  obtain ⟨u', hu', hkind, hshape, hrows⟩ := stack?_widest hne hs
  obtain rfl := Option.some.inj (hu'.symm.trans h)
  have hwidest : widest (bs ++ [b]) = (widest bs).join b.kind := by
    rw [widest, List.foldl_append]
    rfl
  have hwider : Kind.join ((widest bs).join b.kind) (widest bs) = (widest bs).join b.kind := by
    cases widest bs <;> cases b.kind <;> rfl
  obtain ⟨v, hv, hvkind, hvshape, hvrows, hvlast⟩ := append?_rows
    (a := u'.cast ((widest bs).join b.kind)) (b := b.cast ((widest bs).join b.kind))
    (by rw [kind_cast, kind_cast]) ((shape_cast ..).trans hshape) (shape_cast ..)
  obtain ⟨w, hw, hwkind, hwshape, hwrows⟩ := stack?_widest
    (List.append_ne_nil_of_right_ne_nil bs (List.cons_ne_nil b [])) (s := b.shape)
    (by simpa [or_imp, forall_and] using hs)
  have happend : append? u' b.lifted = some v := by
    rw [append?_cast, hkind]
    exact hv
  rw [happend, hw]
  refine congrArg some (eq_of_rows (n := bs.length + 1) (s := b.shape) ?_ hvshape (by simpa using hwshape)
    fun i hi => ?_)
  · rw [hvkind, kind_cast, hwkind, hwidest]
  · rw [hwrows i (by simpa using hi), hwidest]
    rcases Nat.lt_succ_iff_lt_or_eq.1 hi with hi | rfl
    · rw [hvrows i hi, row_cast hshape _ hi, hrows i hi, List.getElem_append_left hi,
        cast_cast (join_widest (List.getElem_mem hi)) hwider]
    · rw [hvlast, List.getElem_append_right (Nat.le_refl _)]
      simp

end Block

end LeastSquares
