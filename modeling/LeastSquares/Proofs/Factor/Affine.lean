import LeastSquares.Proofs.Factor.Gradient
import LeastSquares.Proofs.Value.Coordinates

/-!
# Factors with affine residuals

The residual of a factor is affine in the coordinates of its variables if it is so over the scalars
and, with the same coefficients, over traced numbers, in values as in slopes; and the transpose that
the factor gives is that of its coefficients. A Jacobian whose rows come from the transpose is then
the one that differentiation finds. The factors of this library that have explicit or scalar
Jacobians are affine.
-/

namespace LeastSquares

/-! ## Readings -/

/-- Exact numbers among the numbers of another type. -/
structure Lifting {α β : Type} [Scalar α] [Scalar β] (lift : α → β) : Prop where
  ofInt (i : Int) : lift (Scalar.ofInt i) = Scalar.ofInt i

/-- A way to read numbers as exact ones that is linear over those that are lifted. -/
structure Reading {α β : Type} [LinearOrder α] [ExactScalar α] [Scalar β] (lift : α → β)
    (read : β → α) : Prop where
  zero : read Scalar.zero = 0
  add (x y : β) : read (x + y) = read x + read y
  sub (x y : β) : read (x - y) = read x - read y
  scaled (a : α) (x : β) : read (lift a * x) = a * read x

section Readings

variable {α : Type} [LinearOrder α] [ExactScalar α]

theorem lifting_id : Lifting (id : α → α) := ⟨fun _ => rfl⟩

theorem lifting_const : Lifting (Traced.const : α → Traced α) := ⟨fun _ => rfl⟩

theorem reading_id : Reading (id : α → α) id where
  zero := Scalar.zero_eq
  add _ _ := rfl
  sub _ _ := rfl
  scaled _ _ := rfl

theorem reading_value : Reading (Traced.const : α → Traced α) Traced.value where
  zero := Scalar.zero_eq
  add := Traced.value_add
  sub := Traced.value_sub
  scaled a x := Traced.value_mul (.const a) x

theorem reading_slope (i : Nat) : Reading (Traced.const : α → Traced α) (·.slope i) where
  zero := rfl
  add x y := Traced.slope_add x y i
  sub x y := Traced.slope_sub x y i
  scaled a x := by
    rw [Traced.slope_mul, Traced.slope_const, zero_mul, zero_add, mul_comm]
    rfl

variable {β : Type} [Scalar β] {lift : α → β} {read : β → α}

theorem Reading.dot (hread : Reading lift read) (a : Nat → α) (x : Nat → β) (n : Nat) :
    read (Block.dot ((List.range n).map fun c => (lift (a c), x c))) =
      ∑ c ∈ Finset.range n, a c * read (x c) := by
  induction n with
  | zero => exact hread.zero
  | succ n ih =>
    rw [List.range_succ, List.map_append, Block.dot, List.foldl_append, Finset.sum_range_succ, ← ih]
    exact (hread.add ..).trans (congrArg _ (hread.scaled ..))

theorem Lifting.toReals (hlift : Lifting lift) (b : Block α) :
    (b.mapReals lift).toReals = b.toReals.map lift := by
  have hmap : ∀ {γ : Type} [Inhabited γ] (t : Tensor γ) (f : γ → Int),
      t.map (fun x => (Scalar.ofInt (f x) : β)) =
        (t.map fun x => (Scalar.ofInt (f x) : α)).map lift := by
    intro γ _ t f
    refine Tensor.ext_entry rfl fun k hk => ?_
    have hk : k < t.shape.volume := hk
    have hk' : k < (t.map fun x => (Scalar.ofInt (f x) : α)).shape.volume := hk
    rw [Tensor.entry_map hk, Tensor.entry_map hk', Tensor.entry_map hk, hlift.ofInt]
  cases b with
  | bools t => exact hmap t fun b => if b then 1 else 0
  | ints t => exact hmap t id
  | reals t => rfl

omit [LinearOrder α] [ExactScalar α] [Scalar β] in
theorem Block.shape_mapReals (b : Block α) : (b.mapReals lift).shape = b.shape := by
  cases b <;> rfl

theorem Lifting.entry (hlift : Lifting lift) {b : Block α} {k : Nat} (hk : k < b.shape.volume) :
    (b.mapReals lift).toReals.entry k = lift (b.toReals.entry k) := by
  rw [hlift.toReals, Tensor.entry_map (by rwa [Block.shape_toReals])]

end Readings

/-! ## Affine residuals -/

/-- The values are those of variables of Euclidean types. -/
def Typed {β : Type} (types : List VariableType) (values : List (Found β)) : Prop :=
  List.Forall₂ (fun t x => x.value.IsReal t.shapes) types values

/-- A combination of the coordinates of all variables, by one coefficient for each. -/
def combined {α β : Type} [LinearOrder α] [ExactScalar α] [Scalar β] (read : β → α)
    (A : List (Nat → α)) (values : List (Found β)) : α :=
  ((A.zip values).map fun (a, x) =>
    ∑ c ∈ Finset.range x.value.cells.length, a c * read (x.value.coordinate c)).sum

namespace Factor

variable {C ι α : Type} [FactorFamily C] [LinearOrder α] [ExactScalar α]

/-- The combinations of a vector with the coefficients of each variable. -/
def transposed (types : List VariableType) (m : Nat) (A : List (Nat → Nat → α)) (y : Nat → α) :
    List (Block α) :=
  (types.zip A).map fun (t, a) =>
    .reals (.generate [t.tangentDim] fun c => ∑ j ∈ Finset.range m, y j * a j c)

/-- The residual has `m` coordinates, with the coefficients `A` and the constant `b`. Over traced
numbers values and slopes follow the same rule. -/
structure AffineIn (f : Factor C ι (Block α)) (m : Nat) (A : List (Nat → Nat → α)) (b : Nat → α) :
    Prop where
  euclidean : ∀ t ∈ f.types, t.isEuclidean = true
  length : A.length = f.types.length
  residual : ∀ {values : List (Found α)}, Typed f.types values →
    ∃ r, f.residual values = .ok (.reals r) ∧ r.shape = [m] ∧ ∀ j, j < m →
      r.entry j = combined id (A.map fun a => a j) values - b j
  traced : ∀ {values : List (Found (Traced α))}, Typed f.types values →
    ∃ r, f.still.residual values = .ok (.reals r) ∧ r.shape = [m] ∧ ∀ j, j < m →
      (r.entry j).value = combined Traced.value (A.map fun a => a j) values - b j ∧
      ∀ i, (r.entry j).slope i = combined (·.slope i) (A.map fun a => a j) values

/-- The residual is affine, and the adjoint is the transpose of its coefficients. -/
structure AffineBy (f : Factor C ι (Block α)) (m : Nat) (A : List (Nat → Nat → α)) (b : Nat → α) :
    Prop extends f.AffineIn m A b where
  adjoint : ∀ {y : Tensor α}, y.shape = [m] →
    f.adjoint (.reals y) = .ok (transposed f.types m A y.entry)

/-! ## Explicit Jacobians -/

section Explicit

variable {β : Type} [Scalar β] {lift : α → β} {m : Nat}

/-- The coefficients of a block. -/
def coefficients (B : Block α) (j c : Nat) : α := B.toReals.entry (j * B.shape.getD 1 0 + c)

/-- A block with `m` rows, and a vector that it can be applied to. -/
def Applies (m : Nat) (B : Block α) (x : Found β) : Prop :=
  ∃ d t, B.shape = [m, d] ∧ x.value = .leaf (.reals t) ∧ t.shape = [d]

omit [FactorFamily C] in
theorem combined_cons (read : β → α) (a : Nat → α) (as : List (Nat → α)) (x : Found β)
    (values : List (Found β)) : combined read (a :: as) (x :: values) =
      (∑ c ∈ Finset.range x.value.cells.length, a c * read (x.value.coordinate c)) +
        combined read as values := rfl

omit [FactorFamily C] in
theorem combined_of_applies {read : β → α} {a : Nat → α} {x : Found β} {d : Nat} {t : Tensor β}
    (hx : x.value = .leaf (.reals t)) (ht : t.shape = [d]) :
    combined read [a] [x] = ∑ c ∈ Finset.range d, a c * read (t.entry c) := by
  have hcells : x.value.cells = t.cells.toList := by
    rw [hx]
    exact List.append_nil _
  have hlength : x.value.cells.length = d := by
    rw [hcells, Array.length_toList, t.size_eq, ht, Shape.volume_row]
  simp only [combined, List.zip_cons_cons, List.zip_nil_right, List.map_cons, List.map_nil,
    List.sum_cons, List.sum_nil, add_zero, hlength]
  exact Finset.sum_congr rfl fun c _ => by rw [Value.coordinate_eq_entry hcells.symm]

theorem mulVec?_lift (hlift : Lifting lift) {B : Block α} {t : Tensor β} {d : Nat}
    (hB : B.shape = [m, d]) (ht : t.shape = [d]) :
    ∃ u, (B.mapReals lift).mulVec? (.reals t) = some (.reals u) ∧ u.shape = [m] ∧
      ∀ read, Reading lift read → ∀ j, j < m → read (u.entry j) =
        ∑ c ∈ Finset.range d, coefficients B j c * read (t.entry c) := by
  have hshape : (B.mapReals lift).toReals.shape = [m, d] := by
    rw [Block.shape_toReals, Block.shape_mapReals, hB]
  refine ⟨_, by rw [Block.mulVec?, Block.toReals_reals, Tensor.mulVec?_of_shape hshape ht]; rfl, rfl,
    fun read hread j hj => ?_⟩
  rw [Tensor.entry_generate (by simpa using hj)]
  have hpairs : ((List.range d).map fun c => ((B.mapReals lift).toReals.entry (j * d + c), t.entry c)) =
      (List.range d).map fun c => (lift (coefficients B j c), t.entry c) := by
    refine List.map_congr_left fun c hc => ?_
    rw [hlift.entry (by rw [hB, Shape.volume_matrix]; exact Shape.cell_lt hj (List.mem_range.1 hc)),
      coefficients, hB]
    rfl
  rw [hpairs, hread.dot]

/-- A total over the blocks that are done: the integer zero before the first. -/
def Sums (lift : α → β) (m : Nat) (done : List (Block α × Found β)) (total : Block β) : Prop :=
  (done = [] ∧ total = .int 0) ∨ ∃ r, total = .reals r ∧ r.shape = [m] ∧
    ∀ read, Reading lift read → ∀ j, j < m → read (r.entry j) =
      (done.map fun p => combined read [coefficients p.1 j] [p.2]).sum

theorem addImage_sums (hlift : Lifting lift) {done : List (Block α × Found β)} {total : Block β}
    {p : Block α × Found β} (htotal : Sums lift m done total) (hp : Applies m p.1 p.2) :
    ∃ next, addImage total (.leaf (p.1.mapReals lift), p.2) = .ok next ∧
      Sums lift m (done ++ [p]) next := by
  obtain ⟨d, t, hB, hx, ht⟩ := hp
  obtain ⟨u, hu, hushape, hread⟩ := mulVec?_lift hlift hB ht
  have hadd : ∀ {next}, total.add? (.reals u) = some next →
      addImage total (.leaf (p.1.mapReals lift), p.2) = .ok next := by
    intro next h
    simp [addImage, Value.array, Tree.single?, Found.array, hx, hu, h]
  rcases htotal with ⟨rfl, rfl⟩ | ⟨r, rfl, hr, hsum⟩
  · obtain ⟨w, hw, hwshape, hwentry⟩ := Tensor.zipWith?_scalar (f := (· + ·))
      (s := (Block.int 0 : Block β).toReals) rfl hushape
    refine ⟨.reals w, hadd ?_, .inr ⟨w, rfl, hwshape, fun read hπ j hj => ?_⟩⟩
    · rw [Block.add?, Block.arith?_of_real (by simp), Block.toReals_reals, hw]
      rfl
    · have hentry : (Block.int 0 : Block β).toReals.entry 0 = Scalar.zero := by
        simp [Block.int, Block.toReals, Tensor.entry, Tensor.map, Tensor.scalar, Scalar.zero]
      have hzero : read ((Block.int 0 : Block β).toReals.entry 0) = 0 := by rw [hentry, hπ.zero]
      rw [hwentry j hj, hπ.add, hzero, zero_add, hread read hπ j hj]
      simp [combined_of_applies hx ht]
  · obtain ⟨w, hw, hwshape, hwentry⟩ := Block.add?_reals (hr.trans hushape.symm)
    refine ⟨.reals w, hadd hw, .inr ⟨w, rfl, hwshape.trans hr, fun read hπ j hj => ?_⟩⟩
    rw [hwentry j (by rw [hr, Shape.volume_row]; exact hj), hπ.add, hsum read hπ j hj,
      hread read hπ j hj]
    simp [combined_of_applies hx ht]

theorem sum_combined {read : β → α} (A : List (Nat → α)) (values : List (Found β)) :
    ((A.zip values).map fun p => combined read [p.1] [p.2]).sum = combined read A values := by
  simp [combined]

theorem jacobianForward_lift (hlift : Lifting lift) {blocks : List (Block α)}
    {values : List (Found β)} (hne : blocks ≠ []) (h : List.Forall₂ (Applies m) blocks values) :
    ∃ r, jacobianForward (blocks.map fun B => .leaf (B.mapReals lift)) values = .ok (.reals r) ∧
      r.shape = [m] ∧ ∀ read, Reading lift read → ∀ j, j < m → read (r.entry j) =
        combined read (blocks.map fun B => coefficients B j) values := by
  have hzip : List.Forall₂ (fun p q => q = (Tree.leaf (Block.mapReals lift p.1), p.2) ∧
      Applies m p.1 p.2) (blocks.zip values)
      ((blocks.map fun B => .leaf (B.mapReals lift)).zip values) := by
    clear hne
    induction h with
    | nil => exact .nil
    | cons hp _ ih => exact .cons ⟨rfl, hp⟩ ih
  obtain ⟨total, htotal, hsums⟩ := Checked.foldlM_forall₂ (P := Sums lift m) (f := addImage) hzip
    (.inl ⟨rfl, rfl⟩) fun done p q total hq hdone => by
      obtain ⟨rfl, hp⟩ := hq
      exact addImage_sums hlift hdone hp
  rcases hsums with ⟨hnil, -⟩ | ⟨r, rfl, hr, hread⟩
  · cases h with
    | nil => exact absurd rfl hne
    | cons => cases hnil
  · refine ⟨r, htotal, hr, fun read hπ j hj => ?_⟩
    rw [hread read hπ j hj, ← sum_combined, List.zip_map_left, List.map_map]
    rfl

/-- The residual of a factor with an explicit Jacobian, whose leaves are lifted. -/
theorem residual_jacobian_lift (hlift : Lifting lift) (handles : List (Handle ι)) (label : Label)
    {blocks : List (Block α)} {error : Block α} {values : List (Found β)} (hne : blocks ≠ [])
    (h : List.Forall₂ (Applies m) blocks values) (herror : error.shape = [m]) :
    ∃ r, ((⟨.jacobian, handles, [.node label (blocks.map .leaf), .leaf error]⟩ :
        Factor C ι (Block α)).mapFields (Block.mapReals lift)).residual values = .ok (.reals r) ∧
      r.shape = [m] ∧ ∀ read, Reading lift read → ∀ j, j < m → read (r.entry j) =
        combined read (blocks.map fun B => coefficients B j) values -
          read (lift (error.toReals.entry j)) := by
  obtain ⟨r, hr, hrshape, hread⟩ := jacobianForward_lift hlift hne h
  obtain ⟨u, hu, hushape, hentry⟩ := Block.sub?_reals (s := r) (b := error.mapReals lift)
    (by rw [hrshape, Block.shape_mapReals, herror])
  refine ⟨u, ?_, hushape.trans hrshape, fun read hπ j hj => ?_⟩
  · show (jacobianForward (Tree.map.all (Block.mapReals lift) (blocks.map .leaf)) values >>=
      fun image => fitting (image.sub? (error.mapReals lift))) = _
    rw [Tree.map_all_map_leaf, hr, Checked.ok_bind, hu, fitting_some]
  · rw [hentry j (by rw [hrshape, Shape.volume_row]; exact hj), hπ.sub, hread read hπ j hj,
      hlift.entry (by rw [herror, Shape.volume_row]; exact hj)]

end Explicit

section Instances

variable {m : Nat}

omit [FactorFamily C] [LinearOrder α] [ExactScalar α] in
theorem applies_of_typed {β : Type} {handles : List (Handle ι)} {blocks : List (Block α)}
    {values : List (Found β)} (hvector : ∀ a ∈ handles, a.type.IsVector)
    (shapes : List.Forall₂ (fun a B => B.shape = [m, a.type.tangentDim]) handles blocks)
    (h : Typed (handles.map (·.type)) values) : List.Forall₂ (Applies m) blocks values := by
  replace h := List.forall₂_map_left_iff.1 h
  induction shapes generalizing values with
  | nil =>
    cases h
    exact .nil
  | @cons a B _ _ hB _ ih =>
    cases h with
    | @cons _ x _ _ hx hrest =>
      rw [(hvector a (by simp)).2] at hx
      obtain ⟨t, hvalue, ht⟩ := hx.leaf
      exact .cons ⟨_, t, hB, hvalue, ht⟩ (ih (fun b hb => hvector b (by simp [hb])) hrest)

omit [FactorFamily C] in
theorem transposed_coefficients {handles : List (Handle ι)} {blocks : List (Block α)}
    (shapes : List.Forall₂ (fun a B => B.shape = [m, a.type.tangentDim]) handles blocks)
    (y : Nat → α) :
    (blocks.map fun B => Block.reals (.generate [B.shape.getD 1 0] fun c =>
      ∑ j ∈ Finset.range m, y j * B.toReals.entry (j * B.shape.getD 1 0 + c))) =
    transposed (handles.map (·.type)) m (blocks.map coefficients) y := by
  induction shapes with
  | nil => rfl
  | @cons a B _ _ hB _ ih =>
    rw [List.map_cons, ih, List.map_cons, List.map_cons, transposed, transposed, List.zip_cons_cons,
      List.map_cons]
    simp only [coefficients, hB, List.getD_cons_succ, List.getD_cons_zero]

omit [FactorFamily C] [LinearOrder α] [ExactScalar α] in
theorem mapFields_id (f : Factor C ι (Block α)) : f.mapFields (Block.mapReals id) = f := by
  have hblock : (Block.mapReals id : Block α → Block α) = fun b => b := by
    funext b
    cases b with
    | reals t =>
      obtain ⟨shape, cells, _⟩ := t
      simp [Block.mapReals, Tensor.map]
    | bools | ints => rfl
  have htree : (Tree.map fun b : Block α => b) = fun t : Tree (Block α) => t :=
    funext fun t => Tree.map_id t
  obtain ⟨kind, handles, fields⟩ := f
  simp [mapFields, map, hblock, htree]

/-- A factor with an explicit Jacobian whose blocks and constant fit its variables is affine. -/
theorem affineBy_jacobian {handles : List (Handle ι)} {label : Label} {blocks : List (Block α)}
    {error : Block α} (connected : handles ≠ []) (hvector : ∀ a ∈ handles, a.type.IsVector)
    (shapes : List.Forall₂ (fun a B => B.shape = [m, a.type.tangentDim]) handles blocks)
    (herror : error.shape = [m]) :
    AffineBy (⟨.jacobian, handles, [.node label (blocks.map .leaf), .leaf error]⟩ :
      Factor C ι (Block α)) m (blocks.map coefficients) error.toReals.entry where
  euclidean t ht := by
    obtain ⟨a, ha, rfl⟩ := List.mem_map.1 ht
    exact (hvector a ha).1
  length := by simp [types, shapes.length_eq]
  residual {values} h := by
    have hne : blocks ≠ [] := by
      rintro rfl
      cases shapes
      exact connected rfl
    obtain ⟨r, hr, hshape, hread⟩ := residual_jacobian_lift (C := C) lifting_id handles label
      hne (applies_of_typed hvector shapes h) herror
    rw [mapFields_id] at hr
    refine ⟨r, hr, hshape, fun j hj => ?_⟩
    rw [List.map_map]
    exact hread id reading_id j hj
  traced {values} h := by
    have hne : blocks ≠ [] := by
      rintro rfl
      cases shapes
      exact connected rfl
    obtain ⟨r, hr, hshape, hread⟩ := residual_jacobian_lift (C := C) lifting_const handles
      label hne (applies_of_typed hvector shapes h) herror
    refine ⟨r, hr, hshape, fun j hj => ⟨?_, fun i => ?_⟩⟩
    · rw [List.map_map]
      exact hread Traced.value reading_value j hj
    · rw [List.map_map]
      exact (hread (·.slope i) (reading_slope i) j hj).trans (sub_zero _)
  adjoint {y} hy := by
    rw [adjoint_jacobian handles label _ (fun B hB => ?_) hy, transposed_coefficients shapes]
    · rfl
    · obtain ⟨k, hk, rfl⟩ := List.getElem_of_mem hB
      exact ⟨_, shapes.get (shapes.length_eq ▸ hk) hk⟩

/-- The coefficients of a multiple of the identity. -/
def scalarCoefficients (scalar : Block α) (j c : Nat) : α :=
  if j = c then scalar.toReals.entry 0 else 0

omit [FactorFamily C] in
theorem sum_scalarCoefficients {scalar : Block α} {m j : Nat} (hj : j < m) (x : Nat → α) :
    ∑ c ∈ Finset.range m, scalarCoefficients scalar j c * x c = scalar.toReals.entry 0 * x j := by
  simp [scalarCoefficients, hj]

theorem residual_scalarJacobian_lift {β : Type} [Scalar β] {lift : α → β} (hlift : Lifting lift)
    {a : Handle ι} {scalar : Block α} {values : List (Found β)} (hvector : a.type.IsVector)
    (hscalar : scalar.shape = []) (h : Typed [a.type] values) :
    ∃ r, ((⟨.scalarJacobian, [a], [.leaf scalar]⟩ : Factor C ι (Block α)).mapFields
        (Block.mapReals lift)).residual values = .ok (.reals r) ∧ r.shape = [a.type.tangentDim] ∧
      ∀ read, Reading lift read → ∀ j, j < a.type.tangentDim → read (r.entry j) =
        combined read [scalarCoefficients scalar j] values := by
  obtain ⟨x, rest, hx, hrest, rfl⟩ := List.forall₂_cons_left_iff.1 h
  obtain rfl := List.forall₂_nil_left_iff.1 hrest
  rw [hvector.2] at hx
  obtain ⟨t, hvalue, ht⟩ := hx.leaf
  obtain ⟨u, hu, hushape, hentry⟩ := Tensor.zipWith?_scalar (f := (· * ·))
    (s := (scalar.mapReals lift).toReals) (by rw [Block.shape_toReals, Block.shape_mapReals, hscalar]) ht
  have hmul : (scalar.mapReals lift).mul? (.reals t) = some (.reals u) := by
    rw [Block.mul?, Block.arith?_of_real (by simp), Block.toReals_reals, hu]
    rfl
  refine ⟨u, ?_, hushape, fun read hread j hj => ?_⟩
  · show (do fitting ((← Value.array (.leaf (scalar.mapReals lift))).mul? (← x.array))) = _
    simp [Value.array, Tree.single?, Found.array, hvalue, hmul]
  · rw [hentry j hj, hlift.entry (by rw [hscalar]; exact Nat.one_pos), hread.scaled,
      combined_of_applies hvalue ht, sum_scalarCoefficients hj fun c => read (t.entry c)]

/-- A factor that scales a variable is affine. -/
theorem affineBy_scalarJacobian (a : Handle ι) (scalar : Block α) (hvector : a.type.IsVector)
    (hscalar : scalar.shape = []) :
    AffineBy (⟨.scalarJacobian, [a], [.leaf scalar]⟩ : Factor C ι (Block α)) a.type.tangentDim
      [scalarCoefficients scalar] fun _ => 0 where
  euclidean t ht := by
    obtain rfl := List.mem_singleton.1 ht
    exact hvector.1
  length := rfl
  residual {values} h := by
    obtain ⟨r, hr, hshape, hread⟩ :=
      residual_scalarJacobian_lift (C := C) lifting_id hvector hscalar h
    rw [mapFields_id] at hr
    exact ⟨r, hr, hshape, fun j hj => (hread id reading_id j hj).trans (sub_zero _).symm⟩
  traced {values} h := by
    obtain ⟨r, hr, hshape, hread⟩ :=
      residual_scalarJacobian_lift (C := C) lifting_const hvector hscalar h
    exact ⟨r, hr, hshape, fun j hj =>
      ⟨(hread Traced.value reading_value j hj).trans (sub_zero _).symm,
        fun i => hread (·.slope i) (reading_slope i) j hj⟩⟩
  adjoint {y} hy := by
    obtain ⟨w, hw, hwshape, hentry⟩ := Block.mul?_scalar hscalar hy
    show (do return [← fitting ((← Value.array (.leaf scalar)).mul? (.reals y))]) = _
    simp only [Value.array, Tree.single?, fitting_some, Checked.ok_bind, hw]
    refine congrArg (fun t => Except.ok [Block.reals t]) (Tensor.eq_generate hwshape fun c hc => ?_)
    rw [Shape.volume_row] at hc
    rw [hentry c hc]
    simp [scalarCoefficients, hc, mul_comm]

end Instances

/-! ## The Jacobian by rows of the transpose -/

section Linearizing

variable {f : Factor C ι (Block α)} {m : Nat} {A : List (Nat → Nat → α)} {b : Nat → α}
  {values : List (Found α)}

/-- The blocks that have the coefficients as entries. -/
def coefficientBlocks (types : List VariableType) (m : Nat) (A : List (Nat → Nat → α)) :
    List (Tensor α) :=
  (types.zip A).map fun (t, a) =>
    .generate [m, t.tangentDim] fun k => a (k / t.tangentDim) (k % t.tangentDim)

/-- A row of the identity matrix. -/
def identityRow (m i : Nat) : Tensor α :=
  (Tensor.generate [m, m] fun k => if k / m = k % m then Scalar.one else Scalar.zero).row i

theorem entry_identityRow {i j : Nat} (hi : i < m) (hj : j < m) :
    (identityRow m i : Tensor α).entry j = if i = j then 1 else 0 := by
  rw [identityRow, Tensor.entry_row rfl i (by simpa using hj), Shape.volume_row,
    Tensor.entry_generate (by simpa using Shape.cell_lt hi hj), Shape.cell_div hj, Shape.cell_mod hj,
    Scalar.one_eq, Scalar.zero_eq]

/-- Row `i` of the identity matrix picks the coefficients of coordinate `i`. -/
theorem transposed_identityRow {types : List VariableType} {i : Nat} (hi : i < m)
    {y : Nat → α} (hy : ∀ j, j < m → y j = if i = j then 1 else 0) :
    transposed types m A y = (types.zip A).map fun (t, a) =>
      Block.reals (.generate [t.tangentDim] fun c => a i c) := by
  refine List.map_congr_left fun p _ => congrArg Block.reals (Tensor.generate_congr fun c _ => ?_)
  rw [Finset.sum_eq_single_of_mem i (Finset.mem_range.2 hi)]
  · rw [hy i hi, if_pos rfl, one_mul]
  · intro j hj hne
    rw [hy j (Finset.mem_range.1 hj), if_neg hne.symm, zero_mul]

omit [FactorFamily C] in
theorem row_coefficientBlocks (types : List VariableType) {i : Nat} (hi : i < m) :
    (coefficientBlocks types m A).map (fun B => Block.row (.reals B) i) =
      (types.zip A).map fun (t, a) => Block.reals (.generate [t.tangentDim] fun c => a i c) := by
  rw [coefficientBlocks, List.map_map]
  refine List.map_congr_left fun p _ => congrArg Block.reals (Tensor.eq_generate rfl fun c hc => ?_)
  rw [Shape.volume_row] at hc
  rw [Tensor.entry_row rfl i (by simpa using hc), Shape.volume_row,
    Tensor.entry_generate (by simpa using Shape.cell_lt hi hc), Shape.cell_div hc, Shape.cell_mod hc]

/-- The rows of the transpose, tabulated, are the blocks of the coefficients. -/
theorem AffineBy.tabulate (h : f.AffineBy m A b) :
    Value.tabulate m (fun i =>
      f.adjoint (((Block.identity m : Block α).cast .real).row i) >>= fun gs =>
        .ok (.node .tuple (gs.map Value.ofBlock))) =
      .ok (.node .tuple ((coefficientBlocks f.types m A).map fun B => .leaf (.reals B))) := by
  have hrow : ∀ i, f.adjoint (((Block.identity m : Block α).cast .real).row i) =
      .ok (transposed f.types m A (identityRow m i).entry) := fun i =>
    h.adjoint (y := identityRow m i) rfl
  simp only [hrow, Checked.ok_bind]
  rcases Nat.eq_zero_or_pos m with rfl | hm
  · -- without rows, the shapes are those of a row
    have hempty : ∀ p ∈ f.types.zip A, Tree.leaf (Block.noRows (.reals (.generate [p.1.tangentDim]
        fun c => ∑ j ∈ Finset.range 0, (identityRow 0 0 : Tensor α).entry j * p.2 j c))) =
        .leaf (.reals (.generate [0, p.1.tangentDim]
          fun k => p.2 (k / p.1.tangentDim) (k % p.1.tangentDim))) := by
      intro p _
      refine congrArg (fun t => Tree.leaf (Block.reals t)) (Tensor.generate_congr fun k hk => ?_)
      simp at hk
    show Except.ok (Tree.map Block.noRows (.node .tuple (List.map Tree.leaf _))) = _
    rw [Tree.map_node_map_leaf, transposed, coefficientBlocks, List.map_map, List.map_map]
    exact congrArg (fun cs => Except.ok (Tree.node .tuple cs)) (List.map_congr_left hempty)
  · have hflat : ∀ bs : List (Tensor α), (bs.map fun B => Tree.leaf (Block.reals B)) =
        (bs.map .reals).map .leaf := fun bs => by rw [List.map_map]; rfl
    rw [hflat]
    refine Value.tabulate_eq (.node .tuple ((f.types.zip A).map fun p =>
      .leaf (.real, [p.1.tangentDim]))) hm ?_ fun i hi => ?_
    · rw [Value.form_node_map_leaf, Value.rowsForm, coefficientBlocks, List.map_map, List.map_map,
        Tree.map, Tree.map_all_eq, List.map_map]
      rfl
    · rw [transposed_identityRow hi fun j hj => entry_identityRow hi hj, ← row_coefficientBlocks _ hi,
        Value.row, Tree.map_node_map_leaf, List.map_map, List.map_map]
      rfl

/-- A factor with an affine residual gives its coefficients as blocks, and what is left of its
residual with them as constant. -/
theorem AffineBy.linearizingAffine_eq (h : f.AffineBy m A b) {r : Tensor α}
    (hr : f.residual values = .ok (.reals r)) (hshape : r.shape = [m]) :
    f.linearizingAffine values = .ok (ofJacobian f.handles (coefficientBlocks f.types m A)
      (.generate [m] fun j => -r.entry j)) := by
  have hneg : (Block.reals r).neg? = some (.reals (.generate [m] fun j => -r.entry j)) := by
    refine congrArg (fun t => some (Block.reals t)) (Tensor.eq_generate hshape fun k hk => ?_)
    exact Tensor.entry_map (hshape ▸ hk)
  unfold linearizingAffine
  rw [hr, Checked.ok_bind]
  simp only [show (Block.reals r).shape = [m] from hshape]
  have htab := h.tabulate
  simp only [Checked.pure_eq_ok] at htab ⊢
  rw [Block.kind_reals, htab, Checked.ok_bind, hneg]
  rfl

/-! ## Slopes along the inputs -/

/-- The coefficient that belongs to input `i`. -/
def coefficientAt (inputs : List (VariableType × Nat)) (a : List (Nat → α)) (i : Nat) : α :=
  ((a.zip inputs).map fun (a, p) =>
    ∑ c ∈ Finset.range p.1.tangentDim, a c * if p.2 + c = i then 1 else 0).sum

omit [FactorFamily C] in
theorem coefficientAt_cons (t : VariableType) (start : Nat) (inputs : List (VariableType × Nat))
    (a : Nat → α) (as : List (Nat → α)) (i : Nat) :
    coefficientAt ((t, start) :: inputs) (a :: as) i =
      (∑ c ∈ Finset.range t.tangentDim, a c * if start + c = i then 1 else 0) +
        coefficientAt inputs as i := rfl

theorem coefficientAt_of_lt (types : List VariableType) {start i : Nat} (h : i < start)
    (a : List (Nat → α)) :
    coefficientAt (types.zip (offsets (types.map (·.tangentDim)) start)) a i = 0 := by
  induction types generalizing start a with
  | nil => simp [coefficientAt]
  | cons t types ih =>
    cases a with
    | nil => rfl
    | cons a as =>
      rw [List.map_cons, offsets, List.zip_cons_cons, coefficientAt_cons, ih (by omega), add_zero]
      refine Finset.sum_eq_zero fun c _ => ?_
      rw [if_neg (by omega), mul_zero]

/-- The runs of inputs do not overlap. -/
theorem coefficientAt_offset (types : List VariableType) (start : Nat) (a : List (Nat → α)) :
    ∀ q ∈ (types.zip (offsets (types.map (·.tangentDim)) start)).zip a, ∀ c, c < q.1.1.tangentDim →
      coefficientAt (types.zip (offsets (types.map (·.tangentDim)) start)) a (q.1.2 + c) = q.2 c := by
  induction types generalizing start a with
  | nil => simp
  | cons t types ih =>
    cases a with
    | nil => simp
    | cons a as =>
      intro q hq c hc
      rw [List.map_cons, offsets, List.zip_cons_cons, coefficientAt_cons]
      rcases List.mem_cons.1 hq with rfl | hq
      · rw [coefficientAt_of_lt types (by simpa using hc)]
        simp [hc]
      · rw [ih (start + t.tangentDim) as q hq c hc, add_eq_right]
        have hstart : start + t.tangentDim ≤ q.1.2 :=
          le_offsets _ _ _ (List.of_mem_zip (List.of_mem_zip hq).1).2
        refine Finset.sum_eq_zero fun d hd => ?_
        have hd := Finset.mem_range.1 hd
        rw [if_neg (by omega), mul_zero]

/-- The value of a variable moved along its inputs. -/
def MovesTo (p : VariableType × Nat) (x : Found α) (y : Found (Traced α)) : Prop :=
  y.value.IsReal p.1.shapes ∧ y.value.cells.length = p.1.tangentDim ∧
    x.value.cells.length = p.1.tangentDim ∧ ∀ c, c < p.1.tangentDim →
      (y.value.coordinate c).value = x.value.coordinate c ∧
      ∀ i, (y.value.coordinate c).slope i = if p.2 + c = i then 1 else 0

theorem retract_movesTo {p : VariableType × Nat} (hp : p.1.isEuclidean = true) {x : Found α}
    (hx : x.value.IsReal p.1.shapes) :
    ∃ y, p.1.retract x.value.still (.ofBlock (displacement p.1.tangentDim p.2)) = .ok y ∧
      MovesTo p x ⟨y, .clamped⟩ := by
  obtain ⟨hstill, hcells⟩ := hx.mapReals Traced.const
  obtain ⟨y, hy, hreal, hcoordinate⟩ := VariableType.retract_euclidean hp hstill
    (d := .generate [p.1.tangentDim] fun c => .input (p.2 + c) Scalar.zero) rfl
  have hdim : totalExtent (p.1.shapes.leaves.map Shape.volume) = p.1.tangentDim :=
    (VariableType.tangentDim_eq hp).symm
  have hlength := hx.length_cells.trans hdim
  refine ⟨y, hy, hreal, hreal.length_cells.trans hdim, hlength, fun c hc => ?_⟩
  rw [hcoordinate c hc, Tensor.entry_generate (by rwa [Shape.volume_row]),
    Value.coordinate_of_map hcells (by omega)]
  refine ⟨?_, fun i => ?_⟩
  · rw [Traced.value_add]
    exact (congrArg _ Scalar.zero_eq).trans (add_zero _)
  · rw [Traced.slope_add, Traced.slope_const, Traced.slope_input, zero_add]

omit [FactorFamily C] in
theorem movingValues_of_typed (heuclidean : ∀ t ∈ f.types, t.isEuclidean = true)
    (h : Typed f.types values) :
    ∃ moving, f.movingValues values = .ok moving ∧
      List.Forall₂ (fun q y => MovesTo q.1 q.2 y) (f.inputs.zip values) moving := by
  rw [← map_fst_inputs, Typed, List.forall₂_map_left_iff] at h
  refine Checked.mapM_forall₂ fun q hq => ?_
  have hx : q.2.value.IsReal q.1.1.shapes := (List.forall₂_iff_zip.1 h).2 hq
  have htype : q.1.1 ∈ f.types := by
    rw [← map_fst_inputs]
    exact List.mem_map_of_mem (List.of_mem_zip hq).1
  obtain ⟨y, hy, hmoves⟩ := retract_movesTo (heuclidean _ htype) hx
  refine ⟨⟨y, .clamped⟩, ?_, hmoves⟩
  dsimp only
  rw [hy]
  rfl

theorem typed_of_movesTo {inputs : List (VariableType × Nat)} {moving : List (Found (Traced α))}
    (hlength : inputs.length = values.length)
    (h : List.Forall₂ (fun q y => MovesTo q.1 q.2 y) (inputs.zip values) moving) :
    Typed (inputs.map Prod.fst) moving := by
  rw [Typed, List.forall₂_map_left_iff]
  induction inputs generalizing values moving with
  | nil =>
    cases h
    exact .nil
  | cons p inputs ih =>
    cases values with
    | nil => cases hlength
    | cons x values =>
      cases h with
      | cons hmoves h => exact .cons hmoves.1 (ih (by simpa using hlength) h)

/-- What is read of moved values: their values are those before, and their slopes pick the
coefficient of an input. -/
theorem combined_movesTo {inputs : List (VariableType × Nat)} {moving : List (Found (Traced α))}
    (hlength : inputs.length = values.length)
    (h : List.Forall₂ (fun q y => MovesTo q.1 q.2 y) (inputs.zip values) moving)
    (a : List (Nat → α)) :
    combined Traced.value a moving = combined id a values ∧
      ∀ i, combined (·.slope i) a moving = coefficientAt inputs a i := by
  induction inputs generalizing values moving a with
  | nil =>
    cases values with
    | nil =>
      cases h
      simp [combined, coefficientAt]
    | cons => cases hlength
  | cons p inputs ih =>
    cases values with
    | nil => cases hlength
    | cons x values =>
      cases h with
      | @cons _ y _ moving hmoves h =>
        cases a with
        | nil => simp [combined, coefficientAt]
        | cons a as =>
          obtain ⟨hvalue, hslope⟩ := ih (by simpa using hlength) h as
          obtain ⟨-, hy, hx, hcoordinate⟩ := hmoves
          refine ⟨?_, fun i => ?_⟩
          · rw [combined_cons, combined_cons, hvalue, hy, hx]
            refine congrArg (· + _) (Finset.sum_congr rfl fun c hc => ?_)
            rw [(hcoordinate c (Finset.mem_range.1 hc)).1]
            rfl
          · rw [combined_cons, coefficientAt_cons, hslope, hy]
            refine congrArg (· + _) (Finset.sum_congr rfl fun c hc => ?_)
            rw [(hcoordinate c (Finset.mem_range.1 hc)).2]

/-- The Jacobian that differentiation finds. -/
theorem AffineIn.slopeBlocks (h : f.AffineIn m A b) {moving : List (Found (Traced α))}
    {r : Tensor (Traced α)} (hslope : ∀ j, j < m → ∀ i, (r.entry j).slope i =
      combined (·.slope i) (A.map fun a => a j) moving)
    (hmoving : ∀ a i, combined (·.slope i) a moving = coefficientAt f.inputs a i) :
    f.inputs.map (slopeBlock (.reals r) m) = coefficientBlocks f.types m A := by
  have hinputs : f.inputs.length = f.types.length := by
    rw [← map_fst_inputs, List.length_map]
  rw [coefficientBlocks]
  refine List.ext_getElem (by simp [hinputs, h.length]) fun k hk hk' => ?_
  have hk : k < f.inputs.length := by simpa using hk
  have hktypes : k < f.types.length := hinputs ▸ hk
  have htype : (f.inputs[k]).1 = f.types[k] := by
    simp only [← map_fst_inputs, List.getElem_map]
  have hkA : k < A.length := by rw [h.length, ← hinputs]; exact hk
  rw [List.getElem_map, List.getElem_map, List.getElem_zip, slopeBlock, htype]
  refine Tensor.generate_congr fun e he => ?_
  rw [Shape.volume_matrix] at he
  have hdim : 0 < (f.types[k]).tangentDim := by
    refine Nat.pos_of_ne_zero fun h => ?_
    simp [h] at he
  have hrow := (Nat.div_lt_iff_lt_mul hdim).2 he
  have hmod := Nat.mod_lt e hdim
  rw [Block.toReals_reals, hslope _ hrow, hmoving]
  have hmem : (f.inputs[k], A[k] (e / (f.types[k]).tangentDim)) ∈
      f.inputs.zip (A.map fun a => a (e / (f.types[k]).tangentDim)) := by
    refine List.mem_iff_getElem.2 ⟨k, by simp [hk, hkA], ?_⟩
    simp
  exact coefficientAt_offset f.types 0 _ _ hmem _ (by rw [htype]; exact hmod)

/-- The evaluation over traced numbers has the residual as values and the coefficients as slopes. -/
theorem AffineIn.evaluated (h : f.AffineIn m A b) (hvalues : Typed f.types values) {r : Tensor α}
    (hr : f.residual values = .ok (.reals r)) :
    ∃ moving R, f.movingValues values = .ok moving ∧ f.still.residual moving = .ok (.reals R) ∧
      R.shape = [m] ∧ f.inputs.map (slopeBlock (.reals R) m) = coefficientBlocks f.types m A ∧
      ∀ j, j < m → (R.entry j).value = r.entry j := by
  obtain ⟨moving, hmoving, hmoves⟩ := movingValues_of_typed h.euclidean hvalues
  have hlength : f.inputs.length = values.length := by
    rw [← List.length_map (f := Prod.fst), map_fst_inputs, hvalues.length_eq]
  have htyped := typed_of_movesTo hlength hmoves
  rw [map_fst_inputs] at htyped
  obtain ⟨R, hR, hRshape, hRentry⟩ := h.traced htyped
  obtain ⟨r', hr', hshape, hentry⟩ := h.residual hvalues
  obtain rfl := Block.reals.inj (Except.ok.inj (hr'.symm.trans hr))
  refine ⟨moving, R, hmoving, hR, hRshape, h.slopeBlocks (fun j hj => (hRentry j hj).2)
    fun a => (combined_movesTo hlength hmoves a).2, fun j hj => ?_⟩
  rw [(hRentry j hj).1, (combined_movesTo hlength hmoves _).1, hentry j hj]

/-- The gradient of the error is the transpose of the coefficients, applied to the residual. -/
theorem AffineIn.errorGradient_eq (h : f.AffineIn m A b) (hvalues : Typed f.types values)
    {r : Tensor α} (hr : f.residual values = .ok (.reals r)) :
    f.errorGradient values = .ok (pullback (coefficientBlocks f.types m A) m r.entry) := by
  obtain ⟨moving, R, hmoving, hR, hshape, hblocks, hvalue⟩ := h.evaluated hvalues hr
  rw [Factor.errorGradient_eq hmoving hR hshape, hblocks]
  refine congrArg Except.ok (pullback_congr fun j hj => ?_)
  rw [Block.toReals_reals, hvalue j hj]

/-- Differentiation finds the coefficients. -/
theorem AffineIn.linearizing_eq (h : f.AffineIn m A b) (hvalues : Typed f.types values)
    {r : Tensor α} (hr : f.residual values = .ok (.reals r)) :
    f.linearizing values = .ok (ofJacobian f.handles (coefficientBlocks f.types m A)
      (.generate [m] fun j => -r.entry j)) := by
  obtain ⟨moving, R, hmoving, hR, hshape, hblocks, hvalue⟩ := h.evaluated hvalues hr
  rw [Factor.linearizing_eq hmoving hR hshape, hblocks]
  refine congrArg (fun t => Except.ok (ofJacobian f.handles (coefficientBlocks f.types m A) t))
    (Tensor.generate_congr fun j hj => ?_)
  rw [Shape.volume_row] at hj
  rw [Block.toReals_reals, hvalue j hj]

end Linearizing

end Factor

end LeastSquares
