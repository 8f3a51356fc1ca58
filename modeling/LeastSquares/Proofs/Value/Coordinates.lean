import LeastSquares.Proofs.Value.Stack
import LeastSquares.Variable

/-!
# Values by their coordinates

A value whose arrays are scalars is told by their shapes and by the row of all its cells. Flattening
gives this row and unflattening takes it, so a value of a Euclidean type is moved coordinate by
coordinate. This holds over any scalars.
-/

namespace LeastSquares

theorem totalExtent_eq_sum (ds : List Nat) : totalExtent ds = ds.sum := by
  induction ds with
  | nil => rfl
  | cons d ds ih => rw [totalExtent, ih, List.sum_cons]

/-- Tensors of the same shapes that have the same cells are the same. -/
theorem Tensor.eq_of_cells {β : Type} {ts us : List (Tensor β)}
    (hshapes : ts.map (·.shape) = us.map (·.shape))
    (h : (ts.flatMap fun t => t.cells.toList) = us.flatMap fun t => t.cells.toList) : ts = us := by
  induction ts generalizing us with
  | nil => simpa using hshapes.symm
  | cons t ts ih =>
    cases us with
    | nil => cases hshapes
    | cons u us =>
      rw [List.map_cons, List.map_cons, List.cons.injEq] at hshapes
      have hlength : t.cells.toList.length = u.cells.toList.length := by
        simp [Tensor.size_eq, hshapes.1]
      obtain ⟨hcells, hrest⟩ := List.append_inj h hlength
      obtain ⟨_, ⟨_⟩, _⟩ := t
      obtain ⟨_, ⟨_⟩, _⟩ := u
      obtain rfl := hshapes.1
      obtain rfl := hcells
      rw [ih hshapes.2 hrest]

theorem Tensor.ext_cells {β : Type} {t u : Tensor β} (hshape : t.shape = u.shape)
    (h : t.cells.toList = u.cells.toList) : t = u :=
  List.singleton_inj.1 (eq_of_cells (congrArg ([·]) hshape) (by simpa using h))

namespace Value

variable {α : Type} [Scalar α]

/-- The cells of all arrays, one after another. -/
def cells (v : Value α) : List α := v.leaves.flatMap fun b => b.toReals.cells.toList

/-- Coordinate `c` of all arrays. -/
def coordinate (v : Value α) (c : Nat) : α := v.cells.getD c default

/-- The arrays hold scalars under these shapes. -/
def IsReal (shapes : Tree Shape) (v : Value α) : Prop := v.form = shapes.map fun s => (.real, s)

omit [Scalar α] in
theorem IsReal.skeleton {shapes : Tree Shape} {v : Value α} (h : v.IsReal shapes) :
    v.skeleton = shapes.skeleton := by
  rw [← skeleton_form, show v.form = _ from h, Tree.skeleton_map]

omit [Scalar α] in
theorem IsReal.leaves {shapes : Tree Shape} {v : Value α} (h : v.IsReal shapes) :
    ∃ ts : List (Tensor α), Tree.leaves v = ts.map .reals ∧ ts.map (·.shape) = shapes.leaves := by
  have hleaves : (Tree.leaves v).map (fun b => (b.kind, b.shape)) =
      shapes.leaves.map fun s => (.real, s) := by
    rw [← leaves_form, show v.form = _ from h, Tree.leaves_map]
  have hreal : ∀ b ∈ Tree.leaves v, ∃ t, b = .reals t := by
    intro b hb
    have hmem := List.mem_map_of_mem (f := fun b : Block α => (b.kind, b.shape)) hb
    rw [hleaves] at hmem
    obtain ⟨s, -, hs⟩ := List.mem_map.1 hmem
    cases b with
    | reals t => exact ⟨t, rfl⟩
    | bools | ints => cases congrArg Prod.fst hs
  obtain ⟨ts, hts⟩ := Block.exists_map_of_kind _ hreal
  refine ⟨ts, hts, ?_⟩
  rw [hts, List.map_map] at hleaves
  have hshapes := congrArg (List.map Prod.snd) hleaves
  rw [List.map_map, List.map_map] at hshapes
  simpa [Function.comp_def, Block.shape] using hshapes

omit [Scalar α] in
theorem isReal_of_leaves {shapes : Tree Shape} {v : Value α} {ts : List (Tensor α)}
    (hskeleton : v.skeleton = shapes.skeleton) (hleaves : Tree.leaves v = ts.map .reals)
    (hshapes : ts.map (·.shape) = shapes.leaves) : v.IsReal shapes := by
  refine Tree.map_eq_map_iff.2 ⟨hskeleton, ?_⟩
  rw [hleaves, ← hshapes, List.map_map, List.map_map]
  rfl

omit [Scalar α] in
/-- A value that is a single array. -/
theorem IsReal.leaf {s : Shape} {v : Value α} (h : v.IsReal (.leaf s)) :
    ∃ t, v = .leaf (.reals t) ∧ t.shape = s := by
  cases v with
  | leaf b =>
    have hpair : (b.kind, b.shape) = (.real, s) := by
      injection (show Tree.leaf (b.kind, b.shape) = .leaf (.real, s) from h)
    cases b with
    | reals t => exact ⟨t, rfl, congrArg Prod.snd hpair⟩
    | bools | ints => cases congrArg Prod.fst hpair
  | absent => cases h
  | node => cases h

omit [Scalar α] in
/-- A value that is an element of a group. -/
theorem IsReal.group {g : LieGroup} {s : Shape} {v : Value α}
    (h : v.IsReal (.node (.group g) [.leaf s])) : ∃ a, v = .ofGroup g a ∧ a.shape = s := by
  have hskeleton : v.skeleton = .node (.group g) [.leaf ()] := h.skeleton
  obtain ⟨bs, rfl, hlength⟩ := @Tree.eq_flat_of_skeleton _ _ _ (.group g) [()] hskeleton
  obtain ⟨b, rfl⟩ := List.length_eq_one_iff.1 hlength
  obtain ⟨ts, hts, hshapes⟩ := h.leaves
  rw [Tree.leaves_node_map_leaf] at hts
  obtain ⟨t, rfl⟩ := List.length_eq_one_iff.1 (by simpa using congrArg List.length hts.symm)
  obtain rfl : b = .reals t := by simpa using hts
  exact ⟨t, rfl, by simpa [Tree.leaves, Tree.leaves.all] using hshapes⟩

omit [Scalar α] in
theorem isReal_ofGroup {g : LieGroup} {a : Tensor α} (ha : a.shape = [g.paramDim]) :
    (ofGroup g a).IsReal (VariableType.lie g).shapes := by
  show Tree.node _ [Tree.leaf (Kind.real, a.shape)] = _
  rw [ha]
  rfl

theorem cells_eq {v : Value α} {ts : List (Tensor α)} (h : Tree.leaves v = ts.map .reals) :
    v.cells = ts.flatMap fun t => t.cells.toList := by
  rw [cells, h, List.flatMap_map]
  rfl

omit [Scalar α] in
theorem length_cells {ts : List (Tensor α)} :
    (ts.flatMap fun t => t.cells.toList).length = totalExtent (ts.map fun t => t.shape.volume) := by
  rw [totalExtent_eq_sum, List.length_flatMap]
  simp [Tensor.size_eq]

theorem IsReal.length_cells {shapes : Tree Shape} {v : Value α} (h : v.IsReal shapes) :
    v.cells.length = totalExtent (shapes.leaves.map Shape.volume) := by
  obtain ⟨ts, hts, hshapes⟩ := h.leaves
  rw [cells_eq hts, Value.length_cells, ← hshapes, List.map_map]
  rfl

/-- Values under the same shapes that have the same cells are the same. -/
theorem IsReal.eq_of_cells {shapes : Tree Shape} {v w : Value α} (hv : v.IsReal shapes)
    (hw : w.IsReal shapes) (h : v.cells = w.cells) : v = w := by
  obtain ⟨ts, hts, htshapes⟩ := hv.leaves
  obtain ⟨us, hus, hushapes⟩ := hw.leaves
  rw [cells_eq hts, cells_eq hus] at h
  obtain rfl := Tensor.eq_of_cells (htshapes.trans hushapes.symm) h
  exact Tree.eq_of_leaves _ _ (hv.skeleton.trans hw.skeleton.symm) (by rw [hts, hus])

/-- Values under the same shapes are told by their coordinates. -/
theorem IsReal.eq_of_coordinates {shapes : Tree Shape} {v w : Value α} (hv : v.IsReal shapes)
    (hw : w.IsReal shapes) (h : ∀ c, c < totalExtent (shapes.leaves.map Shape.volume) →
      v.coordinate c = w.coordinate c) : v = w := by
  refine hv.eq_of_cells hw (List.ext_getElem (hv.length_cells.trans hw.length_cells.symm) ?_)
  intro c hc hc'
  have hsame := h c (hv.length_cells ▸ hc)
  rwa [coordinate, coordinate, List.getD_eq_getElem _ _ hc, List.getD_eq_getElem _ _ hc'] at hsame

/-- The value with each number replaced by its image. -/
theorem IsReal.mapReals {β : Type} [Scalar β] (f : α → β) {shapes : Tree Shape} {v : Value α}
    (h : v.IsReal shapes) : IsReal shapes (Tree.map (Block.mapReals f) v) ∧
      cells (Tree.map (Block.mapReals f) v) = v.cells.map f := by
  obtain ⟨ts, hts, hshapes⟩ := h.leaves
  have hleaves : Tree.leaves (Tree.map (Block.mapReals f) v) = (ts.map (Tensor.map f)).map .reals := by
    rw [Tree.leaves_map, hts, List.map_map, List.map_map]
    rfl
  refine ⟨isReal_of_leaves ?_ hleaves ?_, ?_⟩
  · rw [Tree.skeleton_map, h.skeleton]
  · rw [List.map_map, ← hshapes]
    rfl
  · rw [cells_eq hleaves, cells_eq hts, List.flatMap_map, List.map_flatMap]
    simp [Tensor.map]

theorem coordinate_of_map {β : Type} [Scalar β] {f : α → β} {v : Value α} {w : Value β}
    (h : w.cells = v.cells.map f) {c : Nat} (hc : c < v.cells.length) :
    w.coordinate c = f (v.coordinate c) := by
  simp [coordinate, h, hc]

/-! ## Flattening -/

theorem flatten_of_real {shapes : Tree Shape} {v : Value α} (h : v.IsReal shapes) :
    ∃ t, v.flatten = .ok (.reals t) ∧ t.shape = [totalExtent (shapes.leaves.map Shape.volume)] ∧
      t.cells.toList = v.cells := by
  have hlength := h.length_cells
  obtain ⟨ts, hts, -⟩ := h.leaves
  have hcells := cells_eq hts
  cases ts with
  | nil =>
    have hempty : v.cells = [] := by simpa using hcells
    refine ⟨.generate [0] fun _ => Scalar.zero, ?_, ?_, ?_⟩
    · rw [flatten, hts]
      rfl
    · rw [← hlength, hempty]
      rfl
    · rw [hempty]
      rfl
  | cons t ts =>
    have hfold := Tensor.toList_concat_cells (t :: ts) #[]
    have hwide : Block.widest ((t :: ts).map Block.reals) = .real :=
      Block.widest_eq (by simp) (by simp [Block.kind])
    have hreals : ((t :: ts).map Block.reals).map Block.toReals = t :: ts := by
      rw [List.map_map]
      exact List.map_id _
    refine ⟨.vector ((t :: ts).foldl (fun cells u => cells ++ u.cells) #[]), ?_, ?_, ?_⟩
    · rw [flatten, hts]
      show fitting (Block.gather? ((t :: ts).map Block.reals) _) = _
      rw [Block.gather?, hwide, hreals]
      rfl
    · rw [← hlength, hcells]
      show [_] = [_]
      rw [← Array.length_toList, hfold]
      simp
    · rw [hcells]
      simpa [Tensor.vector] using hfold

omit [Scalar α] in
/-- Cells are cut into tensors of the shapes that they fill. -/
theorem cut_of_length (shapes : List Shape) (xs : List α)
    (h : xs.length = totalExtent (shapes.map Shape.volume)) :
    (cut 1 shapes xs).map (·.shape) = shapes ∧
      ((cut 1 shapes xs).flatMap fun t => t.cells.toList) = xs := by
  induction shapes generalizing xs with
  | nil => exact ⟨rfl, (List.length_eq_zero_iff.1 h).symm⟩
  | cons s shapes ih =>
    rw [List.map_cons, totalExtent] at h
    have hsize : (xs.take (s.volume * 1)).toArray.size = s.volume := by
      rw [List.size_toArray, List.length_take]
      omega
    obtain ⟨hshapes, hcells⟩ := ih (xs.drop (s.volume * 1)) (by
      rw [List.length_drop]
      omega)
    simp only [cut, Tensor.ofCells?, dif_pos hsize]
    refine ⟨congrArg (s :: ·) hshapes, ?_⟩
    rw [List.flatMap_cons, hcells]
    exact List.take_append_drop ..

theorem unflatten_of_shape (shapes : Tree Shape) {t : Tensor α}
    (ht : t.shape = [totalExtent (shapes.leaves.map Shape.volume)]) :
    ∃ v, unflatten shapes (.reals t) = .ok v ∧ v.IsReal shapes ∧ v.cells = t.cells.toList := by
  obtain ⟨hcutshapes, hcells⟩ := cut_of_length shapes.leaves t.cells.toList (by
    rw [Array.length_toList, t.size_eq, ht, Shape.volume_row])
  have hlength : ((cut 1 shapes.leaves t.cells.toList).map Block.reals).length =
      shapes.leaves.length := by
    rw [List.length_map, ← List.length_map (f := fun t : Tensor α => t.shape), hcutshapes]
  obtain ⟨v, hv, hskeleton, hleaves⟩ := Tree.refill?_of_length hlength
  refine ⟨v, ?_, isReal_of_leaves hskeleton hleaves hcutshapes, ?_⟩
  · have hshape : (Block.reals t).shape = [totalExtent (shapes.leaves.map Shape.volume)] := ht
    unfold unflatten
    simp only [hshape, ne_eq, not_true_eq_false, if_false, Shape.volume_nil, hv]
    rfl
  · rw [cells_eq hleaves, hcells]

theorem coordinate_eq_entry {v : Value α} {t : Tensor α} (h : t.cells.toList = v.cells) (c : Nat) :
    v.coordinate c = t.entry c := by
  rw [coordinate, ← h, Tensor.entry, Array.getD_eq_getD_getElem?, List.getD_eq_getElem?_getD,
    Array.getElem?_toList]

end Value

namespace LieGroup

variable {α : Type} [Scalar α]

/-- One group element moved along one tangent vector. -/
theorem moved?_eq (g : LieGroup) {a d : Tensor α} (ha : a.shape = [g.paramDim])
    (hd : d.shape = [g.tangentDim]) :
    g.moved? a d = some (.ofRows [] g.paramDim fun k => g.mulRow (a.coordinate [] k)
      ((d.mapRows g.paramDim g.expRow).coordinate [] k)) := by
  have hlead : ∀ {t : Tensor α} {n : Nat}, t.shape = [n] → t.lead = [] ∧ t.width = n := by
    intro t n ht
    rw [Tensor.lead, Tensor.width, ht]
    exact ⟨rfl, rfl⟩
  obtain ⟨halead, hawidth⟩ := hlead ha
  obtain ⟨hdlead, hdwidth⟩ := hlead hd
  have hexp : g.exp? d = some (d.mapRows g.paramDim g.expRow) := by
    rw [exp?, if_pos ⟨by simp [hd], hdwidth⟩]
  have hexpshape : (d.mapRows g.paramDim g.expRow).shape = [g.paramDim] := by
    rw [Tensor.mapRows, hdlead]
    rfl
  obtain ⟨helead, hewidth⟩ := hlead hexpshape
  have hfits : g.fitsLeft g.paramDim = true ∧ g.fitsRight g.paramDim = true := by
    cases g <;> decide
  rw [moved?, hexp]
  show g.mul? a _ = _
  rw [mul?, if_pos ⟨by simp [ha], by simp [hexpshape], by rw [hawidth]; exact hfits.1,
    by rw [hewidth]; exact hfits.2⟩, Tensor.zipRows?, halead, helead]
  rfl

/-- A group element is moved along any tangent vector. -/
theorem moved?_of_shape (g : LieGroup) {a d : Tensor α} (ha : a.shape = [g.paramDim])
    (hd : d.shape = [g.tangentDim]) : ∃ u, g.moved? a d = some u ∧ u.shape = [g.paramDim] :=
  ⟨_, g.moved?_eq ha hd, rfl⟩

end LieGroup

namespace VariableType

/-- The type is moved coordinate by coordinate. -/
def isEuclidean : VariableType → Bool
  | real _ | euclidean .. => true
  | _ => false

/-- Values of the type are single vectors of its coordinates. -/
def IsVector (t : VariableType) : Prop := t.isEuclidean = true ∧ t.shapes = .leaf [t.tangentDim]

theorem tangentDim_eq {t : VariableType} (ht : t.isEuclidean = true) : t.tangentDim = t.paramDim := by
  cases t <;> first | rfl | cases ht

theorem isDifferentiable_of_isEuclidean {t : VariableType} (ht : t.isEuclidean = true) :
    t.isDifferentiable = true := by
  cases t <;> first | rfl | cases ht

theorem isVector_real (n : Nat) : (real n).IsVector := by
  refine ⟨rfl, ?_⟩
  show Tree.leaf [n] = .leaf [totalExtent [Shape.volume [n]]]
  simp [totalExtent]

variable {α : Type} [Scalar α]

/-- A value of a Euclidean type is moved by adding to its coordinates. -/
theorem retract_euclidean {t : VariableType} (ht : t.isEuclidean = true) {x : Value α}
    (hx : x.IsReal t.shapes) {d : Tensor α} (hd : d.shape = [t.tangentDim]) :
    ∃ y, t.retract x (.ofBlock (.reals d)) = .ok y ∧ y.IsReal t.shapes ∧
      ∀ c, c < t.tangentDim → y.coordinate c = x.coordinate c + d.entry c := by
  rw [tangentDim_eq ht] at hd ⊢
  obtain ⟨flat, hflat, hshape, hcells⟩ := Value.flatten_of_real hx
  obtain ⟨u, hu, hushape, huentry⟩ := Block.add?_reals (s := flat) (t := d) (hshape.trans hd.symm)
  obtain ⟨y, hy, hreal, hycells⟩ := Value.unflatten_of_shape t.shapes (hushape.trans hshape)
  refine ⟨y, ?_, hreal, fun c hc => ?_⟩
  · have hretract : t.retract x (.ofBlock (.reals d)) =
        x.flatten >>= fun flat => fitting (flat.add? (.reals d)) >>= t.unflatten := by
      cases t <;> first | rfl | cases ht
    rw [hretract, hflat, Checked.ok_bind, hu, fitting_some, Checked.ok_bind]
    exact hy
  · have hc : c < flat.shape.volume := by
      rw [hshape, Shape.volume_row]
      exact hc
    rw [Value.coordinate_eq_entry hycells.symm, Value.coordinate_eq_entry hcells, huentry c hc]

/-- The tangent vector between two values of a Euclidean type is the difference of their coordinates. -/
theorem localCoordinates_euclidean {t : VariableType}
    (ht : t.isEuclidean = true) {x y : Value α} (hx : x.IsReal t.shapes) (hy : y.IsReal t.shapes) :
    ∃ u, t.localCoordinates x y = .ok (.ofBlock (.reals u)) ∧ u.shape = [t.tangentDim] ∧
      ∀ c, c < t.tangentDim → u.entry c = y.coordinate c - x.coordinate c := by
  rw [tangentDim_eq ht]
  obtain ⟨from_, hfrom, hfromshape, hfromcells⟩ := Value.flatten_of_real hx
  obtain ⟨target, htarget, hshape, hcells⟩ := Value.flatten_of_real hy
  obtain ⟨u, hu, hushape, hentry⟩ := Block.sub?_reals (s := target) (b := .reals from_)
    (hshape.trans hfromshape.symm)
  refine ⟨u, ?_, hushape.trans hshape, fun c hc => ?_⟩
  · have hlocal : t.localCoordinates x y = y.flatten >>= fun target => x.flatten >>= fun flat =>
        fitting (target.sub? flat) >>= fun d => .ok (.ofBlock d) := by
      cases t <;> first | rfl | cases ht
    rw [hlocal, htarget, Checked.ok_bind, hfrom, Checked.ok_bind, hu, fitting_some, Checked.ok_bind]
  · have hc : c < target.shape.volume := by
      rw [hshape, Shape.volume_row]
      exact hc
    rw [Value.coordinate_eq_entry hcells, Value.coordinate_eq_entry hfromcells, hentry c hc,
      Block.toReals_reals]

/-! ## Motion -/

/-- A value of a type is moved along any tangent vector, to a value of the type. -/
theorem retract_real {t : VariableType} (ht : t.isDifferentiable = true) {x : Value α}
    (hx : x.IsReal t.shapes) {d : Tensor α} (hd : d.shape = [t.tangentDim]) :
    ∃ y, t.retract x (.ofBlock (.reals d)) = .ok y ∧ y.IsReal t.shapes := by
  cases t with
  | lie g =>
    obtain ⟨a, rfl, ha⟩ : ∃ a, x = .ofGroup g a ∧ a.shape = [g.paramDim] := hx.group
    obtain ⟨u, hu, hushape⟩ := LieGroup.moved?_of_shape g ha hd
    refine ⟨.ofGroup g u, ?_, Value.isReal_ofGroup hushape⟩
    show fitting ((g.moved? a d).map (Value.ofGroup g)) = _
    rw [hu]
    rfl
  | discrete => cases ht
  | real n =>
    obtain ⟨y, hy, hreal, -⟩ := retract_euclidean (t := .real n) rfl hx hd
    exact ⟨y, hy, hreal⟩
  | euclidean name pattern =>
    obtain ⟨y, hy, hreal, -⟩ := retract_euclidean (t := .euclidean name pattern) rfl hx hd
    exact ⟨y, hy, hreal⟩

end VariableType

end LeastSquares
