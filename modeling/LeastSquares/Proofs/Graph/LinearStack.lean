import LeastSquares.Proofs.Graph.FactorRow

/-!
# Linear stacks as matrices

The rows of the image of a stack, and of its residuals, are those of its factors. The transpose
adds up what all factors send to their variables: slot by slot, each slot in one scattered
addition, so that a cell receives one contribution for every row that has a coefficient there.
-/

namespace LeastSquares.Factor

variable {C α : Type} [DecidableEq C] [FactorFamily C] [LinearOrder α] [ExactScalar α]
  {L : Layout C} {n m : Nat} {f : FactorStack C α}

/-! ## Row by row -/

omit [DecidableEq C] [FactorFamily C] in
theorem Linear.overRows (h : Linear L n f m) {β : Type} {read : Reader α}
    {rule : FactorStack C α → List (Found α) → Checked β} {P : Nat → β → Prop}
    (hrow : ∀ i, i < n → ∃ vs b, (f.row i).values read = .ok vs ∧ rule (f.row i) vs = .ok b ∧
      P i b) :
    ∃ bs, f.overRows read rule = .ok bs ∧ List.Forall₂ P (List.range n) bs := by
  obtain ⟨bs, hbs, hP⟩ := Checked.mapM_forall₂ (P := P)
    (f := fun i => do rule (f.row i) (← (f.row i).values read)) (l := List.range n)
    fun i hi => by
      obtain ⟨vs, b, hvs, hb, hP⟩ := hrow i (List.mem_range.1 hi)
      exact ⟨b, by rw [hvs, Checked.ok_bind, hb], hP⟩
  refine ⟨bs, ?_, hP⟩
  unfold Factor.overRows
  rw [h.rows_eq, Checked.ok_bind, List.mapM_map]
  exact hbs

theorem Linear.stackForward (h : Linear L n f m) (hn : 0 < n) (hL : L.Tangent) {x : Vectors C α}
    (hx : x.Fits L) :
    ∃ t, f.stackForward x.bulk = .ok (.reals t) ∧ t.IsMatrix n m (f.image L x) := by
  obtain ⟨bs, hbs, hrows⟩ := h.overRows fun i hi => h.forward_row hL hx hi
  obtain ⟨t, ht, hshape, hentry⟩ := Block.stack?_tabulates hn hrows
  simp only [Shape.volume_row] at hentry
  refine ⟨t, ?_, hshape, hentry⟩
  unfold Factor.stackForward
  rw [hbs, Checked.ok_bind, ht, fitting_some]

theorem Linear.stackResiduals (h : Linear L n f m) (hn : 0 < n) (hL : L.Tangent)
    {x : Vectors C α} (hx : x.Fits L) :
    ∃ t, f.stackResiduals x.bulk = .ok (.reals t) ∧
      t.IsMatrix n m fun i j => f.image L x i j - f.offset i j := by
  obtain ⟨bs, hbs, hrows⟩ := h.overRows fun i hi => h.residual_row hL hx hi
  obtain ⟨t, ht, hshape, hentry⟩ := Block.stack?_tabulates hn hrows
  simp only [Shape.volume_row] at hentry
  refine ⟨t, ?_, hshape, hentry⟩
  unfold Factor.stackResiduals
  rw [hbs, Checked.ok_bind, ht, fitting_some]

/-! ## The transpose -/

/-- The contributions of all factors to the slot of a term, for a vector `Y i` of the residual
space for each factor. -/
def Collects (Y : Nat → Nat → α) (n m : Nat) (T : Term α) (slot : Slot α) : Prop :=
  slot.type = T.type ∧ List.Forall₂ (fun i p => p.1.Indexes (T.index i) ∧
    p.2.Tabulates [T.type.tangentDim] fun c => ∑ j ∈ Finset.range m, Y i j * T.block i j c)
    (List.range n) slot.parts

theorem column_of_rows {Y : Nat → Nat → α} {ts : List (Term α)} {is : List Nat}
    {rows : List (List (Handle (Block α) × Block α))}
    (h : List.Forall₂ (fun i row => List.Forall₂ (Sends (Y i) i m) ts row) is rows) {k : Nat}
    (hk : k < ts.length) :
    List.Forall₂ (fun i p => p.1.Indexes ((ts[k]).index i) ∧
      p.2.Tabulates [(ts[k]).type.tangentDim] fun c =>
        ∑ j ∈ Finset.range m, Y i j * (ts[k]).block i j c)
      is (rows.filterMap fun row => row[k]?.map fun (h, v) => (h.index, v)) := by
  induction h with
  | nil => exact .nil
  | @cons i row is rows hrow _ ih =>
    have hk' : k < row.length := hrow.length_eq ▸ hk
    have hsends := hrow.get hk hk'
    rw [List.filterMap_cons, List.getElem?_eq_getElem hk']
    exact .cons hsends.2 ih

theorem collects_slots {Y : Nat → Nat → α} {ts : List (Term α)} (hn : 0 < n)
    {rows : List (List (Handle (Block α) × Block α))}
    (h : List.Forall₂ (fun i row => List.Forall₂ (Sends (Y i) i m) ts row) (List.range n) rows) :
    List.Forall₂ (Collects Y n m) ts (slots rows) := by
  cases rows with
  | nil =>
    have := h.length_eq
    simp at this
    omega
  | cons first rest =>
    have hfirst : List.Forall₂ (Sends (Y 0) 0 m) ts first := by
      have := h.get (i := 0) (by simpa using hn) (by simp)
      simpa using this
    refine List.forall₂_iff_get.2 ⟨?_, fun k hk hk' => ?_⟩
    · simpa [slots] using hfirst.length_eq
    · have hkf : k < first.length := hfirst.length_eq ▸ hk
      have htype := (hfirst.get hk hkf).1
      have hcolumn := column_of_rows h hk
      refine ⟨?_, ?_⟩
      · simpa [slots] using htype
      · simpa [slots] using hcolumn

omit [FactorFamily C] in
/-- A slot adds to a cell what the factors send there. -/
theorem addInto_of_collects {Y : Nat → Nat → α} {T : Term α} {slot : Slot α} (hn : 0 < n)
    (hL : L.Tangent) (hT : Key.type T.type ∈ L.keys) (h : Collects Y n m T slot)
    {out : Vectors C α} (hout : out.Fills L) :
    ∃ w, slot.addInto out = .ok w ∧ w.Fills L ∧ ∀ u ∈ L.cells, w.coordinate u =
      out.coordinate u +
        ∑ i ∈ Finset.range n, ∑ j ∈ Finset.range m, Y i j * T.coefficient L i j u := by
  obtain ⟨type, parts⟩ := slot
  obtain ⟨rfl, hparts⟩ := h
  obtain ⟨index, hindex, hishape, hientry⟩ := Block.stack?_indexes (l := parts.map (·.1)) hn
    (List.forall₂_map_right_iff.2 (hparts.imp fun _ _ h => h.1))
  obtain ⟨rows, hrows, hrshape, hrentry⟩ := Block.stack?_tabulates (l := parts.map (·.2)) hn
    (List.forall₂_map_right_iff.2 (hparts.imp fun _ _ h => h.2))
  have hwidth := hL T.type hT
  obtain ⟨w, hw, hfills, hcoord⟩ := Vectors.scatterAdd_of_fills hout hT hishape (hwidth ▸ hrshape)
  refine ⟨w, ?_, hfills, fun u hu => ?_⟩
  · unfold Slot.addInto
    rw [hindex, hrows]
    exact hw
  · rw [hcoord u hu]
    obtain ⟨key, k⟩ := u
    simp only [Term.coefficient]
    by_cases hkey : key = .type T.type
    · subst hkey
      have hmod : k % L.width (.type T.type) < L.width (.type T.type) := by
        refine Nat.mod_lt k (Nat.pos_of_ne_zero fun hzero => ?_)
        have := (Layout.mem_cells.1 hu).2
        simp [Layout.size, hzero] at this
      rw [if_pos rfl]
      refine congrArg _ (Finset.sum_congr rfl fun i hi => ?_)
      have hi := Finset.mem_range.1 hi
      rw [hientry i hi]
      by_cases hplace : target (L.rows (.type T.type)) (T.index i) =
          some (k / L.width (.type T.type))
      · have hentry := hrentry i hi (k % L.width (.type T.type)) (by simpa [← hwidth] using hmod)
        rw [Shape.volume_row, ← hwidth] at hentry
        simp [hplace, hentry]
      · simp [hplace]
    · simp [hkey]

omit [FactorFamily C] in
theorem accumulate_of_collects {Y : Nat → Nat → α} {ts : List (Term α)} (hn : 0 < n)
    (hL : L.Tangent) (hts : ∀ T ∈ ts, Key.type T.type ∈ L.keys)
    {rows : List (List (Handle (Block α) × Block α))}
    (h : List.Forall₂ (fun i row => List.Forall₂ (Sends (Y i) i m) ts row) (List.range n) rows)
    {out : Vectors C α} (hout : out.Fills L) :
    ∃ w, accumulate rows out = .ok w ∧ w.Fills L ∧ ∀ u ∈ L.cells, w.coordinate u =
      out.coordinate u + ∑ i ∈ Finset.range n, ∑ j ∈ Finset.range m,
        Y i j * (ts.map fun T => T.coefficient L i j u).sum := by
  have hslots := (List.forall₂_and_left ts _).2 ⟨hts, collects_slots hn h⟩
  obtain ⟨w, hw, hfills, hcoord⟩ := Checked.foldlM_forall₂ (b := out)
    (P := fun done w => Vectors.Fills w L ∧ ∀ u ∈ L.cells, w.coordinate u = out.coordinate u +
      ∑ i ∈ Finset.range n, ∑ j ∈ Finset.range m,
        Y i j * (done.map fun T => T.coefficient L i j u).sum)
    (f := fun out slot => Slot.addInto slot out) hslots
    ⟨hout, fun u _ => by simp⟩ (by
      rintro done T slot w ⟨hT, hcollects⟩ ⟨hw, hcoord⟩
      obtain ⟨w', hw', hfills, hcoord'⟩ := addInto_of_collects hn hL hT hcollects hw
      refine ⟨w', hw', hfills, fun u hu => ?_⟩
      rw [hcoord' u hu, hcoord u hu, add_assoc, ← Finset.sum_add_distrib]
      refine congrArg _ (Finset.sum_congr rfl fun i _ => ?_)
      rw [← Finset.sum_add_distrib]
      refine Finset.sum_congr rfl fun j _ => ?_
      simp [mul_add])
  obtain ⟨hfills', hcoord'⟩ := Vectors.fills_renewed hfills
  refine ⟨⟨w.buffers.renewed⟩, ?_, hfills', fun u hu => ?_⟩
  · unfold accumulate
    rw [hw]
    rfl
  · rw [hcoord' u, hcoord u hu]

omit [DecidableEq C] [FactorFamily C] in
theorem Linear.terms_addressed (h : Linear L n f m) : ∀ T ∈ f.terms, Key.type T.type ∈ L.keys := by
  cases h with
  | @jacobian m label handles blocks error connected shapes error_shape addressed =>
    rw [terms_jacobian]
    intro T hT
    obtain ⟨⟨h, b⟩, hmem, rfl⟩ := List.mem_map.1 hT
    exact (addressed h (List.of_mem_zip hmem).1).1
  | @scalarJacobian h scalar scalar_shape addressed =>
    intro T hT
    obtain rfl : T = .ofScalar h scalar := by simpa [terms] using hT
    exact addressed.1

/-- The transpose of a stack adds up what its rows send. -/
theorem Linear.stackAdjoint_eq (h : Linear L n f m) {t : Tensor α}
    (ht : t.shape = [n, m]) (out : Vectors C α) :
    f.stackAdjoint (.reals t) out = ((List.range n).mapM fun i => do
      return (f.row i).handles.zip (← (f.row i).adjoint ((Block.reals t).row i))) >>=
        fun contributions => accumulate contributions out := by
  have hzip : ((List.range n).map f.row).zipIdx = (List.range n).map fun i => (f.row i, i) := by
    refine List.ext_getElem (by simp) fun k _ _ => ?_
    simp
  have hcount : (Block.reals t).shape.head? = some ((List.range n).map f.row).length := by
    rw [show (Block.reals t).shape = [n, m] from ht]
    simp
  unfold Factor.stackAdjoint
  rw [h.rows_eq, Checked.ok_bind]
  simp only [hcount, ne_eq, not_true_eq_false, if_false, hzip, List.mapM_map]
  rfl

/-- The transpose of a stack, added into a collection with an array for every key. -/
theorem Linear.stackAdjoint (h : Linear L n f m) (hn : 0 < n) (hL : L.Tangent) {t : Tensor α}
    (ht : t.shape = [n, m]) {out : Vectors C α} (hout : out.Fills L) :
    ∃ w, f.stackAdjoint (.reals t) out = .ok w ∧ w.Fills L ∧ ∀ u ∈ L.cells, w.coordinate u =
      out.coordinate u + ∑ i ∈ Finset.range n, ∑ j ∈ Finset.range m,
        t.entry (i * m + j) * f.coefficient L i j u := by
  have hy : ∀ i, i < n → ((Block.reals t).row i).Tabulates [m] fun j => t.entry (i * m + j) := by
    intro i hi
    refine ⟨t.row i, rfl, by rw [Tensor.shape_row, ht]; rfl, fun j hj => ?_⟩
    rw [Tensor.entry_row ht i hj, Shape.volume_row]
  obtain ⟨rows, hrows, hsends⟩ := Checked.mapM_forall₂ (l := List.range n)
    (f := fun i => do return (f.row i).handles.zip (← (f.row i).adjoint ((Block.reals t).row i)))
    (P := fun i row => List.Forall₂ (Sends (fun j => t.entry (i * m + j)) i m) f.terms row)
    fun i hi => by
      obtain ⟨vs, hvs, hsends⟩ := h.adjoint_row (hy i (List.mem_range.1 hi)) i
      exact ⟨_, by rw [hvs]; rfl, hsends⟩
  obtain ⟨w, hw, hfills, hcoord⟩ := accumulate_of_collects hn hL h.terms_addressed hsends hout
  refine ⟨w, ?_, hfills, hcoord⟩
  rw [h.stackAdjoint_eq ht, hrows, Checked.ok_bind, hw]

end LeastSquares.Factor
