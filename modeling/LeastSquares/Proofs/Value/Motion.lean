import LeastSquares.Proofs.Array.Wider
import LeastSquares.Proofs.Buffer.Guard
import LeastSquares.Proofs.Value.Coordinates
import LeastSquares.Buffer.Store

/-!
# Motion of values by their shapes

A value that has the shapes of its type is moved along any vector with as many coordinates as the type
has tangent directions, whatever the kinds of the arrays. The kind of the result depends on kinds alone,
so the moved rows of a stack can be stacked again.
-/

namespace LeastSquares

namespace Block

variable {α : Type} [Scalar α] {a b c : Block α}

/-- Arrays of one shape can be added. -/
theorem exists_add? (h : a.shape = b.shape) :
    ∃ c, a.add? b = some c ∧ c.kind = Kind.join a.kind b.kind ∧ c.shape = a.shape := by
  obtain ⟨c, hc, hshape⟩ := exists_arith? (some or) (· + ·) (· + ·) h
    fun hnone => nomatch hnone
  exact ⟨c, hc, kind_arith? hc, hshape⟩

end Block

namespace Value

variable {α : Type}

/-- The arrays have the places and the shapes of a pattern. -/
def HasShapes (shapes : Tree Shape) (v : Value α) : Prop := Tree.map Block.shape v = shapes

variable {shapes : Tree Shape} {v w : Value α}

theorem HasShapes.skeleton (h : v.HasShapes shapes) : v.skeleton = shapes.skeleton := by
  rw [← show Tree.map Block.shape v = shapes from h, Tree.skeleton_map]

theorem HasShapes.leaves (h : v.HasShapes shapes) :
    (Tree.leaves v).map Block.shape = shapes.leaves := by
  rw [← Tree.leaves_map, show Tree.map Block.shape v = shapes from h]

/-- A value that is an element of a group, in an array of any kind. -/
theorem HasShapes.group {g : LieGroup} {s : Shape} (h : v.HasShapes (.node (.group g) [.leaf s])) :
    ∃ a, v = .node (.group g) [.leaf a] ∧ a.shape = s := by
  have hskeleton : v.skeleton = .node (.group g) [.leaf ()] := h.skeleton
  obtain ⟨bs, rfl, hlength⟩ := @Tree.eq_flat_of_skeleton _ _ _ (.group g) [()] hskeleton
  obtain ⟨a, rfl⟩ := List.length_eq_one_iff.1 hlength
  refine ⟨a, rfl, ?_⟩
  have hleaves := h.leaves
  rw [Tree.leaves_node_map_leaf] at hleaves
  simpa [Tree.leaves, Tree.leaves.all] using hleaves

/-- The kind of all coordinates in one row. -/
def flatKind (v : Value α) : Kind :=
  match v.leaves with
  | [] => .real
  | bs => Block.widest bs

theorem widest_congr {bs cs : List (Block α)} (h : bs.map Block.kind = cs.map Block.kind) :
    Block.widest bs = Block.widest cs := by
  rw [Block.widest, Block.widest, ← List.foldl_map (f := Block.kind) (g := Kind.join),
    ← List.foldl_map (f := Block.kind) (g := Kind.join), h]

theorem flatKind_congr (h : v.form = w.form) : v.flatKind = w.flatKind := by
  have hkinds : v.leaves.map Block.kind = w.leaves.map Block.kind := by
    have hleaves := congrArg (List.map Prod.fst) (leaves_form v |>.symm.trans (h ▸ leaves_form w))
    rwa [List.map_map, List.map_map] at hleaves
  have hwide := widest_congr hkinds
  unfold flatKind
  generalize Tree.leaves v = bs at *
  generalize Tree.leaves w = cs at *
  cases bs with
  | nil =>
    obtain rfl : cs = [] := by simpa using hkinds.symm
    rfl
  | cons b bs =>
    cases cs with
    | nil => cases hkinds
    | cons c cs => exact hwide

theorem form_of_leaves {k : Kind} (hskeleton : v.skeleton = shapes.skeleton)
    (h : (Tree.leaves v).map (fun b => (b.kind, b.shape)) = shapes.leaves.map fun s => (k, s)) :
    v.form = shapes.map fun s => (k, s) := by
  refine Tree.map_eq_map_iff.2 ⟨hskeleton, ?_⟩
  rw [h]

variable [Scalar α]

/-- The number of cells that stand in one row. -/
theorem size_concat {γ : Type} {ts : List (Tensor γ)} {ss : List Shape} (h : ts.map (·.shape) = ss) :
    (ts.foldl (fun cells t => cells ++ t.cells) #[]).size = totalExtent (ss.map Shape.volume) := by
  rw [← Array.length_toList, Tensor.toList_concat_cells, totalExtent_eq_sum, ← h]
  simp [Tensor.size_eq, List.length_flatMap, Function.comp_def]

/-- The coordinates of all arrays in one row. -/
theorem flatten_of_shapes (h : v.HasShapes shapes) : ∃ b, v.flatten = .ok b ∧ b.kind = v.flatKind ∧
    b.shape = [totalExtent (shapes.leaves.map Shape.volume)] := by
  have hleaves := h.leaves
  unfold flatten flatKind
  generalize Tree.leaves v = bs at *
  cases bs with
  | nil =>
    rw [← hleaves]
    exact ⟨_, rfl, rfl, rfl⟩
  | cons b bs =>
    have hsize : ∀ {γ : Type} (f : Block α → Tensor γ), (∀ b, (f b).shape = b.shape) →
        [(((b :: bs).map f).foldl (fun cells t => cells ++ t.cells) #[]).size] =
          [totalExtent (shapes.leaves.map Shape.volume)] := by
      intro γ f hf
      rw [@size_concat _ _ shapes.leaves]
      rw [← hleaves, List.map_map]
      exact List.map_congr_left fun b _ => hf b
    dsimp only
    rw [Block.gather?]
    cases Block.widest (b :: bs) with
    | bool => exact ⟨_, rfl, rfl, hsize Block.toBools Block.shape_toBools⟩
    | int => exact ⟨_, rfl, rfl, hsize Block.toInts Block.shape_toInts⟩
    | real => exact ⟨_, rfl, rfl, hsize Block.toReals Block.shape_toReals⟩

omit [Scalar α] in
/-- Cells that fill a pattern, cut into arrays of its shapes. -/
theorem refill_cut (shapes : Tree Shape) {γ : Type} {t : Tensor γ} (make : Tensor γ → Block α) {k : Kind}
    (ht : t.shape = [totalExtent (shapes.leaves.map Shape.volume)])
    (hmake : ∀ u, (make u).kind = k ∧ (make u).shape = u.shape) :
    ∃ v : Value α, shapes.refill? ((cut 1 shapes.leaves t.cells.toList).map make) = some (v, []) ∧
      v.form = shapes.map fun s => (k, s) := by
  obtain ⟨hcut, -⟩ := cut_of_length shapes.leaves t.cells.toList (by
    rw [Array.length_toList, t.size_eq, ht, Shape.volume_row])
  have hforms : ((cut 1 shapes.leaves t.cells.toList).map make).map (fun b => (b.kind, b.shape)) =
      shapes.leaves.map fun s => (k, s) := by
    refine Eq.trans ?_ (congrArg (List.map fun s => (k, s)) hcut)
    rw [List.map_map, List.map_map]
    exact List.map_congr_left fun u _ => by simp [hmake u]
  have hlength : ((cut 1 shapes.leaves t.cells.toList).map make).length = shapes.leaves.length := by
    simpa using congrArg List.length hforms
  obtain ⟨v, hv, hskeleton, hleaves⟩ := Tree.refill?_of_length hlength
  exact ⟨v, hv, form_of_leaves hskeleton (hleaves ▸ hforms)⟩

omit [Scalar α] in
/-- A value from its coordinates. -/
theorem unflatten_of_row (shapes : Tree Shape) {b : Block α}
    (hb : b.shape = [totalExtent (shapes.leaves.map Shape.volume)]) :
    ∃ v, unflatten shapes b = .ok v ∧ v.form = shapes.map fun s => (b.kind, s) := by
  cases b with
  | bools t =>
    obtain ⟨v, hv, hform⟩ := refill_cut shapes Block.bools hb fun _ => ⟨rfl, rfl⟩
    exact ⟨v, by simp [unflatten, hb, hv], hform⟩
  | ints t =>
    obtain ⟨v, hv, hform⟩ := refill_cut shapes Block.ints hb fun _ => ⟨rfl, rfl⟩
    exact ⟨v, by simp [unflatten, hb, hv], hform⟩
  | reals t =>
    obtain ⟨v, hv, hform⟩ := refill_cut shapes Block.reals hb fun _ => ⟨rfl, rfl⟩
    exact ⟨v, by simp [unflatten, hb, hv], hform⟩

theorem form_row_congr (v : Value α) (i j : Nat) : (v.row i).form = (v.row j).form := by
  simp only [form, row, Tree.map_map, Block.kind_row, Block.shape_row_eq]

theorem HasShapes.row {n : Nat} (h : v.HasShapes (shapes.map (n :: ·))) (i : Nat) :
    (v.row i).HasShapes shapes := by
  have htails := congrArg (Tree.map List.tail) (show Tree.map Block.shape v = _ from h)
  rw [Tree.map_map, Tree.map_map] at htails
  rw [HasShapes, Value.row, Tree.map_map]
  simp only [Block.shape_row_eq]
  exact htails.trans (Tree.map_id shapes)

end Value

namespace VariableType

variable {α : Type}

/-- The kind of a value that has been moved along a vector. -/
def movedKind (t : VariableType) (x : Value α) (d : Block α) : Kind :=
  match t with
  | lie _ => .real
  | _ => Kind.join x.flatKind d.kind

theorem movedKind_congr (t : VariableType) {x y : Value α} {d e : Block α} (hx : x.form = y.form)
    (hd : d.kind = e.kind) : t.movedKind x d = t.movedKind y e := by
  cases t <;> simp only [movedKind, Value.flatKind_congr hx, hd]

/-- A value of its type's shapes is moved along any tangent vector, and has them again. -/
theorem retract_of_shapes [Scalar α] {t : VariableType} (ht : t.isDifferentiable = true) {x : Value α}
    (hx : x.HasShapes t.shapes) {d : Block α} (hd : d.shape = [t.tangentDim]) :
    ∃ y, t.retract x (.ofBlock d) = .ok y ∧ y.form = t.shapes.map fun s => (t.movedKind x d, s) := by
  by_cases heuclidean : t.isEuclidean = true
  · rw [tangentDim_eq heuclidean] at hd
    obtain ⟨flat, hflat, hkind, hshape⟩ := Value.flatten_of_shapes hx
    obtain ⟨u, hu, hukind, hushape⟩ := Block.exists_add? (hshape.trans hd.symm)
    obtain ⟨y, hy, hform⟩ := Value.unflatten_of_row t.shapes (hushape.trans hshape)
    refine ⟨y, ?_, ?_⟩
    · have hretract : t.retract x (.ofBlock d) =
          x.flatten >>= fun flat => fitting (flat.add? d) >>= t.unflatten := by
        cases t <;> first | rfl | cases heuclidean
      rw [hretract, hflat, Checked.ok_bind, hu, fitting_some, Checked.ok_bind]
      exact hy
    · have hmoved : t.movedKind x d = u.kind := by
        rw [hukind, hkind]
        cases t <;> first | rfl | cases heuclidean
      rw [hform, hmoved]
  · cases t with
    | lie g =>
      obtain ⟨a, rfl, ha⟩ := Value.HasShapes.group hx
      obtain ⟨u, hu, hushape⟩ := LieGroup.moved?_of_shape g (a := a.toReals) (d := d.toReals)
        ((Block.shape_toReals a).trans ha) ((Block.shape_toReals d).trans hd)
      refine ⟨.ofGroup g u, ?_, Value.isReal_ofGroup hushape⟩
      show fitting ((g.moved? a.toReals d.toReals).map (Value.ofGroup g)) = _
      rw [hu]
      rfl
    | discrete => cases ht
    | real | euclidean => exact absurd rfl heuclidean

end VariableType

namespace Store

variable {α : Type} [Scalar α]

/-- Values of their type's shapes are moved row by row. -/
theorem retractRows_of_shapes {t : VariableType} (ht : t.isDifferentiable = true) {v : Value α} {n : Nat}
    (hn : 0 < n) (hv : v.HasShapes (t.shapes.map (n :: ·))) {d : Block α}
    (hd : d.shape = [n, t.tangentDim]) : ∃ w, retractRows t v (.ofBlock d) = .ok w ∧
      w.HasShapes (t.shapes.map (n :: ·)) ∧
      ∀ i, i < n → t.retract (v.row i) (.ofBlock (d.row i)) = .ok (w.row i) := by
  have hheads : ∀ leaf ∈ v.leaves, leaf.shape.head? = some n := fun leaf hleaf => by
    have hshape := List.mem_map_of_mem (f := Block.shape) hleaf
    rw [hv.leaves, Tree.leaves_map] at hshape
    obtain ⟨s, -, hs⟩ := List.mem_map.1 hshape
    rw [← hs]
    rfl
  have hcount := Value.rowCount_pair hheads (congrArg List.head? hd)
  let form := t.shapes.map fun s => (t.movedKind (v.row 0) (d.row 0), s)
  have hrow : ∀ i, ∃ y, t.retract (v.row i) (.ofBlock (d.row i)) = .ok y ∧ y.form = form := by
    intro i
    obtain ⟨y, hy, hform⟩ := VariableType.retract_of_shapes ht (hv.row i) (d := d.row i) (by
      rw [Block.shape_row_eq, hd]
      rfl)
    refine ⟨y, hy, ?_⟩
    rw [hform, t.movedKind_congr (v.form_row_congr i 0) ((d.kind_row i).trans (d.kind_row 0).symm)]
  choose y hy hform using hrow
  obtain ⟨w, hw, hwform, hrows⟩ := Value.tabulate_rows hn fun i _ => ⟨hy i, hform i⟩
  refine ⟨w, ?_, ?_, fun i hi => ?_⟩
  · unfold retractRows
    rw [hcount, Checked.ok_bind]
    exact hw
  · have hshapes := congrArg (Tree.map Prod.snd) hwform
    rw [Value.form, Value.rowsForm, Tree.map_map, Tree.map_map, Tree.map_map] at hshapes
    exact hshapes
  · rw [hrows i hi]
    exact hy i

end Store

end LeastSquares
