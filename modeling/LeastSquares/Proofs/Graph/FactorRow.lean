import LeastSquares.Proofs.Graph.Stack

/-!
# One factor of a linear stack

Row `i` of a linear stack is a factor of its own. It reads its variables in a collection that fits
the layout, its linear part is the sum of the images of the terms, and the transpose of that sends
one vector to each variable.
-/

namespace LeastSquares

/-- The columns under a variable type are its tangent coordinates. -/
def Layout.Tangent {C : Type} (L : Layout C) : Prop :=
  ∀ T, Key.type T ∈ L.keys → L.width (.type T) = T.tangentDim

namespace Factor

variable {C α : Type} [DecidableEq C] [LinearOrder α] [ExactScalar α] {L : Layout C} {n m i : Nat}
  {f : FactorStack C α}

/-! ## Reading -/

/-- The handle of factor `i` in a slot. -/
def rowHandle (a : Handle (Block α)) (i : Nat) : Handle (Block α) := ⟨a.type, a.index.row i⟩

omit [DecidableEq C] in
theorem indexes_row {a : Handle (Block α)} (ha : a.Addresses L n) (i : Nat) :
    (a.index.row i).Indexes (a.index.toInts.entry i) := by
  obtain ⟨-, t, ht, hshape, -⟩ := ha
  rw [ht]
  refine ⟨t.row i, rfl, ?_, ?_⟩
  · rw [Tensor.shape_row, hshape]
    rfl
  · rw [Tensor.entry_row hshape i (show 0 < 1 by omega), Shape.volume_nil, Nat.mul_one]
    rfl

/-- What is read at the handle of a factor: the coordinates of a row of the layout. -/
def Reads (L : Layout C) (x : Vectors C α) (i : Nat) (a : Handle (Block α)) (v : Found α) : Prop :=
  ∃ b place, v = ⟨.ofBlock b, .clamped⟩ ∧
    target (L.rows (.type a.type)) (a.index.toInts.entry i) = some place ∧
    b.Tabulates [a.type.tangentDim] fun c =>
      x.coordinate (.type a.type, place * a.type.tangentDim + c)

theorem reads_handle (hL : L.Tangent) {x : Vectors C α} (hx : x.Fits L) {a : Handle (Block α)}
    (ha : a.Addresses L n) (hi : i < n) :
    ∃ v, x.bulk (rowHandle a i).inStack = .ok v ∧ Reads L x i a v := by
  have hindex := indexes_row ha i
  obtain ⟨hkey, t, ht, -, hplace⟩ := ha
  obtain ⟨place, hplace⟩ := hplace i hi
  have hshaped := hx (.type a.type) hkey
  rw [hL a.type hkey] at hshaped
  have hentry : a.index.toInts.entry i = t.entry i := by rw [ht]; rfl
  obtain ⟨b, hb, htab⟩ := Vectors.bulk_of_shaped hshaped hindex (hentry ▸ hplace)
  exact ⟨_, hb, b, place, rfl, hentry ▸ hplace, htab⟩

theorem values_row (hL : L.Tangent) {x : Vectors C α} (hx : x.Fits L) (hi : i < n)
    (hf : ∀ a ∈ f.handles, a.Addresses L n) :
    ∃ vs, (f.row i).values x.bulk = .ok vs ∧ List.Forall₂ (Reads L x i) f.handles vs := by
  obtain ⟨vs, hvs, hreads⟩ := Checked.mapM_forall₂ fun a ha => reads_handle hL hx (hf a ha) hi
  refine ⟨vs, ?_, hreads⟩
  rw [← hvs]
  exact List.mapM_map

theorem image_of_reads {T : Term α} {a : Handle (Block α)} {x : Vectors C α} {v : Found α}
    (hL : L.Tangent) (hkey : Key.type a.type ∈ L.keys) (htype : T.type = a.type)
    (hindex : T.index i = a.index.toInts.entry i) (hv : Reads L x i a v) :
    ∃ u, v = ⟨.ofBlock (.reals u), .clamped⟩ ∧ u.shape = [a.type.tangentDim] ∧
      ∀ j, T.image L x i j = ∑ c ∈ Finset.range a.type.tangentDim, T.block i j c * u.entry c := by
  obtain ⟨_, place, rfl, hplace, u, rfl, hshape, hentry⟩ := hv
  refine ⟨u, rfl, hshape, fun j => ?_⟩
  unfold Term.image
  rw [Term.sum_coefficient (htype ▸ hkey) (by rw [htype, hindex]; exact hplace), htype,
    hL a.type hkey]
  refine Finset.sum_congr rfl fun c hc => ?_
  have hc : c < Shape.volume [a.type.tangentDim] := by simpa using hc
  rw [hentry c hc]

/-! ## The linear part -/

/-- A block of a Jacobian and the vector it is applied to, as a term has them. -/
def Meets (L : Layout C) (x : Vectors C α) (i m : Nat) (T : Term α) (p : Value α × Found α) :
    Prop :=
  ∃ b u, p = (.leaf b, ⟨.ofBlock (.reals u), .clamped⟩) ∧ b.shape = [m, T.type.tangentDim] ∧
    u.shape = [T.type.tangentDim] ∧ ∀ j, j < m → T.image L x i j =
      ∑ c ∈ Finset.range T.type.tangentDim, b.toReals.entry (j * T.type.tangentDim + c) * u.entry c

/-- A total over the terms that are done: the integer zero before the first. -/
def Totals (L : Layout C) (x : Vectors C α) (i m : Nat) (done : List (Term α)) (b : Block α) :
    Prop :=
  (done = [] ∧ b = .int 0) ∨ b.Tabulates [m] fun j => (done.map fun T => T.image L x i j).sum

theorem addImage_of_meets {x : Vectors C α} {done : List (Term α)} {T : Term α} {b : Block α}
    {p : Value α × Found α} (hb : Totals L x i m done b) (hp : Meets L x i m T p) :
    ∃ c, addImage b p = .ok c ∧ c.Tabulates [m] fun j =>
      ((done ++ [T]).map fun T => T.image L x i j).sum := by
  obtain ⟨j, u, rfl, hj, hu, himage⟩ := hp
  obtain ⟨v, hv, hvshape, hventry⟩ := Block.mulVec?_reals hj hu
  have hsum : ∀ c, b.add? (.reals v) = some c →
      addImage b (.leaf j, ⟨.ofBlock (.reals u), .clamped⟩) = .ok c := by
    intro c hc
    simp [addImage, Value.array, Tree.single?, Found.array, Value.ofBlock, hv, hc]
  rcases hb with ⟨rfl, rfl⟩ | ⟨t, rfl, ht, htentry⟩
  · obtain ⟨w, hw, hwshape, hwentry⟩ := Block.add?_int_zero hvshape
    refine ⟨.reals w, hsum _ hw, w, rfl, hwshape, fun k hk => ?_⟩
    have hk : k < m := by simpa using hk
    rw [hwentry k hk, hventry k hk, ← himage k hk]
    simp
  · obtain ⟨w, hw, hwshape, hwentry⟩ := Block.add?_reals (ht.trans hvshape.symm)
    refine ⟨.reals w, hsum _ hw, w, rfl, hwshape.trans ht, fun k hk => ?_⟩
    have hk' : k < m := by simpa using hk
    rw [hwentry k (ht ▸ hk), htentry k hk, hventry k hk', ← himage k hk']
    simp

theorem jacobianForward_of_meets {x : Vectors C α} {ts : List (Term α)} {js : List (Value α)}
    {vs : List (Found α)} (hne : ts ≠ []) (h : List.Forall₂ (Meets L x i m) ts (js.zip vs)) :
    ∃ b, jacobianForward js vs = .ok b ∧
      b.Tabulates [m] fun j => (ts.map fun T => T.image L x i j).sum := by
  obtain ⟨b, hb, htotal⟩ := Checked.foldlM_forall₂ (P := Totals L x i m) (f := addImage) h
    (.inl ⟨rfl, rfl⟩) fun done T p b hp hP => by
      obtain ⟨c, hc, htab⟩ := addImage_of_meets hP hp
      exact ⟨c, hc, .inr htab⟩
  refine ⟨b, hb, ?_⟩
  rcases htotal with ⟨h, -⟩ | htab
  · exact absurd h hne
  · exact htab

/-- The blocks of a row meet the vectors that are read for it. -/
theorem meets_blocks (hL : L.Tangent) {x : Vectors C α}
    {handles : List (Handle (Block α))} {blocks : List (Block α)} {vs : List (Found α)}
    (shapes : List.Forall₂ (fun h b => b.shape = [n, m, h.type.tangentDim]) handles blocks)
    (hreads : List.Forall₂ (Reads L x i) handles vs)
    (haddressed : ∀ h ∈ handles, h.Addresses L n) :
    List.Forall₂ (Meets L x i m) ((handles.zip blocks).map fun (h, b) => .ofBlock h b)
      ((blocks.map fun b => Tree.leaf (b.row i)).zip vs) := by
  induction shapes generalizing vs with
  | nil => exact .nil
  | @cons h b handles blocks hshape _ ih =>
    cases hreads with
    | cons hread hreads =>
      refine .cons ?_ (ih hreads fun a ha => haddressed a (by simp [ha]))
      have hkey := (haddressed h (by simp)).1
      obtain ⟨u, rfl, hu, himage⟩ := image_of_reads (T := .ofBlock h b) hL hkey rfl rfl hread
      have hrow := Block.shape_row hshape i
      refine ⟨b.row i, u, rfl, hrow, hu, fun j hj => ?_⟩
      show Term.image L (.ofBlock h b) x i j = ∑ c ∈ Finset.range h.type.tangentDim,
        (b.row i).toReals.entry (j * h.type.tangentDim + c) * u.entry c
      rw [himage]
      refine Finset.sum_congr rfl fun c hc => ?_
      rw [← Block.entry_toReals_matrix_row hrow hj (Finset.mem_range.1 hc)]
      rfl

omit [DecidableEq C] in
theorem row_jacobian (handles : List (Handle (Block α))) (label : Label) (blocks : List (Block α))
    (error : Block α) (i : Nat) :
    row (⟨.jacobian, handles, [.node label (blocks.map .leaf), .leaf error]⟩ : FactorStack C α) i =
      ⟨.jacobian, handles.map (rowHandle · i),
        [.node label (blocks.map fun b => .leaf (b.row i)), .leaf (error.row i)]⟩ := by
  rw [← Tree.map_node_map_leaf (·.row i) label blocks]
  rfl

omit [DecidableEq C] in
theorem terms_jacobian (handles : List (Handle (Block α))) (label : Label)
    (blocks : List (Block α)) (error : Block α) :
    terms (⟨.jacobian, handles, [.node label (blocks.map .leaf), .leaf error]⟩ : FactorStack C α) =
      (handles.zip blocks).map fun (h, b) => .ofBlock h b := by
  show (handles.zip (Tree.node label (blocks.map .leaf)).leaves).map _ = _
  rw [Tree.leaves_node_map_leaf]

variable [FactorFamily C]

/-- The linear part of a factor, at the values that it reads. -/
theorem Linear.forward_row (h : Linear L n f m) (hL : L.Tangent) {x : Vectors C α} (hx : x.Fits L)
    (hi : i < n) :
    ∃ vs b, (f.row i).values x.bulk = .ok vs ∧ (f.row i).forward vs = .ok b ∧
      b.Tabulates [m] (f.image L x i) := by
  obtain ⟨vs, hvs, hreads⟩ := values_row hL hx hi h.addressed
  have himage := funext fun j => image_eq_sum (L := L) f x i j
  cases h with
  | @jacobian m label handles blocks error connected shapes error_shape addressed =>
    have hmeets := meets_blocks hL shapes hreads addressed
    rw [← terms_jacobian handles label blocks error] at hmeets
    have hne : terms (⟨.jacobian, handles, [.node label (blocks.map .leaf), .leaf error]⟩ :
        FactorStack C α) ≠ [] := by
      rw [terms_jacobian]
      cases shapes with
      | nil => exact absurd rfl connected
      | cons => simp
    obtain ⟨b, hb, htab⟩ := jacobianForward_of_meets hne hmeets
    refine ⟨vs, b, hvs, ?_, himage ▸ htab⟩
    rw [row_jacobian]
    exact hb
  | @scalarJacobian h scalar scalar_shape addressed =>
    obtain ⟨v, rest, hread, hrest, rfl⟩ := List.forall₂_cons_left_iff.1 hreads
    obtain rfl := List.forall₂_nil_left_iff.1 hrest
    obtain ⟨u, rfl, hu, hterm⟩ :=
      image_of_reads (T := .ofScalar h scalar) hL addressed.1 rfl rfl hread
    have hrow := Block.shape_row scalar_shape i
    obtain ⟨w, hw, hwshape, hwentry⟩ := Block.mul?_scalar hrow hu
    refine ⟨_, .reals w, hvs, ?_, w, rfl, hwshape, fun j hj => ?_⟩
    · show (do fitting ((← Value.array (.leaf (scalar.row i))).mul?
        (← Found.array ⟨.ofBlock (.reals u), .clamped⟩))) = _
      simp [Value.array, Tree.single?, Found.array, Value.ofBlock, hw]
    · have hj : j < h.type.tangentDim := by simpa using hj
      rw [image_eq_sum, hwentry j hj]
      show _ = ([Term.ofScalar h scalar].map fun T => T.image L x i j).sum
      rw [List.map_singleton, List.sum_singleton, hterm]
      simp [Term.ofScalar, hj]

/-- The residual of a factor, at the values that it reads. -/
theorem Linear.residual_row (h : Linear L n f m) (hL : L.Tangent) {x : Vectors C α}
    (hx : x.Fits L) (hi : i < n) :
    ∃ vs b, (f.row i).values x.bulk = .ok vs ∧ (f.row i).residual vs = .ok b ∧
      b.Tabulates [m] fun j => f.image L x i j - f.offset i j := by
  obtain ⟨vs, b, hvs, hb, htab⟩ := h.forward_row hL hx hi
  refine ⟨vs, ?_⟩
  cases h with
  | @jacobian m label handles blocks error connected shapes error_shape addressed =>
    obtain ⟨t, rfl, ht, htentry⟩ := htab
    have hrow := Block.shape_row error_shape i
    obtain ⟨u, hu, hushape, huentry⟩ := Block.sub?_reals (ht.trans hrow.symm)
    refine ⟨.reals u, hvs, ?_, u, rfl, hushape.trans ht, fun j hj => ?_⟩
    · rw [row_jacobian] at hb ⊢
      show (do
        let image ← forward _ vs
        fitting (image.sub? (← Value.array (.leaf (error.row i))))) = _
      rw [hb]
      simp [Value.array, Tree.single?, hu]
    · rw [huentry j (ht ▸ hj), htentry j hj]
      rfl
  | @scalarJacobian h scalar scalar_shape addressed =>
    refine ⟨b, hvs, hb, ?_⟩
    have hoffset : ∀ j, offset (⟨.scalarJacobian, [h], [.leaf scalar]⟩ : FactorStack C α) i j = 0 :=
      fun _ => Scalar.zero_eq
    simpa only [hoffset, sub_zero] using htab

/-! ## The transpose -/

/-- What the transpose of the linear part sends to the variable of a term, for a vector `Y` of the
residual space: the handle and the vector. -/
def Sends (Y : Nat → α) (i m : Nat) (T : Term α) (p : Handle (Block α) × Block α) : Prop :=
  p.1.type = T.type ∧ p.1.index.Indexes (T.index i) ∧
    p.2.Tabulates [T.type.tangentDim] fun c => ∑ j ∈ Finset.range m, Y j * T.block i j c

omit [DecidableEq C] [FactorFamily C] in
theorem vecMul?_row {y b : Block α} {Y : Nat → α} {d : Nat} (hy : y.Tabulates [m] Y)
    (hb : b.shape = [n, m, d]) (i : Nat) :
    ∃ v, y.vecMul? (b.row i) = some v ∧
      v.Tabulates [d] fun c => ∑ j ∈ Finset.range m, Y j * ((b.row i).row j).toReals.entry c := by
  obtain ⟨t, rfl, ht, htentry⟩ := hy
  have hrow := Block.shape_row hb i
  obtain ⟨u, hu, hushape, huentry⟩ := Block.vecMul?_reals ht hrow
  refine ⟨.reals u, hu, u, rfl, hushape, fun c hc => ?_⟩
  have hc' : c < d := by simpa using hc
  rw [huentry c hc']
  refine Finset.sum_congr rfl fun j hj => ?_
  have hj := Finset.mem_range.1 hj
  rw [htentry j (by simpa using hj), Block.entry_toReals_matrix_row hrow hj hc']

omit [DecidableEq C] [FactorFamily C] in
theorem adjoint_blocks {y : Block α} {Y : Nat → α} (hy : y.Tabulates [m] Y)
    {handles : List (Handle (Block α))} {blocks : List (Block α)}
    (shapes : List.Forall₂ (fun h b => b.shape = [n, m, h.type.tangentDim]) handles blocks)
    (haddressed : ∀ h ∈ handles, h.Addresses L n) (i : Nat) :
    ∃ vs, (blocks.mapM fun b => fitting (y.vecMul? (b.row i))) = .ok vs ∧
      List.Forall₂ (Sends Y i m) ((handles.zip blocks).map fun (h, b) => .ofBlock h b)
        ((handles.map (rowHandle · i)).zip vs) := by
  induction shapes with
  | nil => exact ⟨[], rfl, .nil⟩
  | @cons h b handles blocks hshape _ ih =>
    obtain ⟨v, hv, htab⟩ := vecMul?_row hy hshape i
    obtain ⟨vs, hvs, hsends⟩ := ih fun a ha => haddressed a (by simp [ha])
    refine ⟨v :: vs, ?_, .cons ⟨rfl, indexes_row (haddressed h (by simp)) i, htab⟩ hsends⟩
    rw [List.mapM_cons, hv, fitting_some, Checked.ok_bind, hvs]
    rfl

omit [DecidableEq C] in
/-- The transpose of the linear part of a factor. -/
theorem Linear.adjoint_row (h : Linear L n f m) {y : Block α} {Y : Nat → α}
    (hy : y.Tabulates [m] Y) (i : Nat) :
    ∃ vs, (f.row i).adjoint y = .ok vs ∧
      List.Forall₂ (Sends Y i m) f.terms ((f.row i).handles.zip vs) := by
  cases h with
  | @jacobian m label handles blocks error connected shapes error_shape addressed =>
    obtain ⟨vs, hvs, hsends⟩ := adjoint_blocks hy shapes addressed i
    refine ⟨vs, ?_, ?_⟩
    · rw [row_jacobian, ← hvs]
      show (blocks.map fun b => Tree.leaf (b.row i)).mapM
        (fun j => do fitting (y.vecMul? (← Value.array j))) = _
      rw [List.mapM_map]
      rfl
    · rw [row_jacobian, terms_jacobian]
      exact hsends
  | @scalarJacobian h scalar scalar_shape addressed =>
    obtain ⟨t, rfl, ht, htentry⟩ := hy
    have hrow := Block.shape_row scalar_shape i
    obtain ⟨w, hw, hwshape, hwentry⟩ := Block.mul?_scalar hrow ht
    refine ⟨[.reals w], ?_, .cons ⟨rfl, indexes_row addressed i, w, rfl, hwshape, fun c hc => ?_⟩
      .nil⟩
    · show (do return [← fitting ((← Value.array (.leaf (scalar.row i))).mul? (.reals t))]) = _
      simp [Value.array, Tree.single?, hw]
    · have hc' : c < h.type.tangentDim := lt_of_lt_of_eq hc (Nat.mul_one _)
      rw [hwentry c hc', htentry c hc]
      simp [Term.ofScalar, hc', mul_comm]

end Factor

end LeastSquares
