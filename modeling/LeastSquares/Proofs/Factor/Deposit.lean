import LeastSquares.Proofs.Buffer.Cells
import LeastSquares.Proofs.Buffer.Sum
import LeastSquares.Proofs.Factor.Linearized

/-!
# What factors add to vectors

Gradients and transposes are added up in vectors by variable, stack by stack and slot by slot. What is
added does not depend on what is there already, so the order in which it is done does not matter, and
neither do the stacks: each factor deposits its vectors in the rows that its handles address.
-/

namespace LeastSquares

open Checked (amount Matches)

/-! ## Steps that add -/

namespace Vectors

section Steps

variable {C α : Type} [DecidableEq C] [LinearOrder α] [ExactScalar α] {L : Layout C}
  {step next : Vectors C α → Checked (Vectors C α)} {d e : WithTop (L.cells → α)}

/-- The step adds the same to whatever fills the layout; if this is `⊤`, it fails on all of it. -/
inductive Adds (L : Layout C) (step : Vectors C α → Checked (Vectors C α)) :
    WithTop (L.cells → α) → Prop
  | adds {d : L.cells → α} (h : ∀ v, v.Fills L →
      ∃ w, step v = .ok w ∧ w.Fills L ∧ w.onCells L = v.onCells L + d) : Adds L step d
  | fails (h : ∀ v, v.Fills L → (step v).Fails) : Adds L step ⊤

theorem Adds.congr (h : Adds L step d)
    (hnext : ∀ v, next v = step v) : Adds L next d := by
  rwa [show next = step from funext hnext]

theorem adds_zero (h : ∀ v, v.Fills L → ∃ w, step v = .ok w ∧ w.Fills L ∧
    w.onCells L = v.onCells L) : Adds L step 0 :=
  .adds (d := 0) fun v hv => by
    obtain ⟨w, hw, hfills, hcells⟩ := h v hv
    exact ⟨w, hw, hfills, hcells.trans (add_zero _).symm⟩

theorem Adds.bind (h : Adds L step d) (hnext : Adds L next e) :
    Adds L (fun v => step v >>= next) (d + e) := by
  cases h with
  | fails h =>
    rw [WithTop.top_add]
    exact .fails fun v hv => (h v hv).bind _
  | @adds d h =>
    cases hnext with
    | fails hnext =>
      rw [WithTop.add_top]
      refine .fails fun v hv => ?_
      obtain ⟨w, hw, hfills, -⟩ := h v hv
      rw [hw]
      exact hnext w hfills
    | @adds e hnext =>
      rw [← WithTop.coe_add]
      refine .adds fun v hv => ?_
      obtain ⟨w, hw, hfills, hcells⟩ := h v hv
      obtain ⟨z, hz, hzfills, hzcells⟩ := hnext w hfills
      exact ⟨z, by rw [hw, Checked.ok_bind, hz], hzfills, by rw [hzcells, hcells, add_assoc]⟩

/-- Steps one after another add the sum of what each adds. -/
theorem Adds.foldlM {γ : Type} {f : Vectors C α → γ → Checked (Vectors C α)}
    {D : γ → WithTop (L.cells → α)} {xs : List γ} (h : ∀ x ∈ xs, Adds L (f · x) (D x)) :
    Adds L (fun v => xs.foldlM f v) (xs.map D).sum := by
  induction xs with
  | nil => exact adds_zero fun v hv => ⟨v, rfl, hv, rfl⟩
  | cons x xs ih =>
    rw [List.map_cons, List.sum_cons]
    exact ((h x (by simp)).bind (ih fun y hy => h y (by simp [hy]))).congr fun v => List.foldlM_cons ..

/-- A step with what a run comes to. -/
theorem exists_adds_of_run {β : Type} (x : Checked β) {f : β → Vectors C α → Checked (Vectors C α)}
    (h : ∀ b, x = .ok b → ∃ d, Adds L (f b) d) : ∃ d, Adds L (fun v => x >>= fun b => f b v) d := by
  cases x with
  | error e => exact ⟨⊤, .fails fun v _ => ⟨e, rfl⟩⟩
  | ok b => exact h b rfl

theorem exists_adds_foldlM {γ : Type} {f : Vectors C α → γ → Checked (Vectors C α)} {xs : List γ}
    (h : ∀ x ∈ xs, ∃ d, Adds L (f · x) d) : ∃ d, Adds L (fun v => xs.foldlM f v) d := by
  choose! D hD using h
  exact ⟨_, Adds.foldlM hD⟩

/-- What a step adds is told by what it does to anything that fills the layout. -/
theorem Adds.eq (h : Adds L step d) (h' : Adds L step e) {v : Vectors C α} (hv : v.Fills L) : d = e := by
  cases h with
  | fails h =>
    generalize htop : (⊤ : WithTop (L.cells → α)) = top at h'
    cases h' with
    | fails => exact htop.symm
    | adds h' =>
      obtain ⟨w, hw, -⟩ := h' v hv
      obtain ⟨_, he⟩ := h v hv
      cases hw.symm.trans he
  | @adds d h =>
    obtain ⟨w, hw, -, hcells⟩ := h v hv
    cases h' with
    | fails h' =>
      obtain ⟨_, he⟩ := h' v hv
      cases hw.symm.trans he
    | @adds e h' =>
      obtain ⟨z, hz, -, hzcells⟩ := h' v hv
      obtain rfl := Except.ok.inj (hw.symm.trans hz)
      exact congrArg _ (add_left_cancel (hcells.symm.trans hzcells))

/-- Steps that add the same match on whatever fills the layout. -/
theorem Adds.matches (h : Adds L step d) (hnext : Adds L next d) {v : Vectors C α} (hv : v.Fills L) :
    Matches (fun w z => w.Fills L ∧ z.Fills L ∧ w.onCells L = z.onCells L) (step v) (next v) := by
  cases h with
  | fails h =>
    obtain ⟨e, he⟩ := h v hv
    generalize htop : (⊤ : WithTop (L.cells → α)) = top at hnext
    cases hnext with
    | fails hnext =>
      obtain ⟨e', he'⟩ := hnext v hv
      rw [he, he']
      trivial
    | adds => cases htop
  | @adds d h =>
    obtain ⟨w, hw, hfills, hcells⟩ := h v hv
    generalize hcoe : (d : WithTop (L.cells → α)) = coe at hnext
    cases hnext with
    | fails => cases hcoe
    | adds hnext =>
      obtain ⟨z, hz, hzfills, hzcells⟩ := hnext v hv
      rw [hw, hz]
      exact ⟨hfills, hzfills, by rw [hcells, hzcells, WithTop.coe_inj.1 hcoe]⟩

end Steps

/-! ## Scattered additions -/

section Scattered

variable {C α : Type} [DecidableEq C] [LinearOrder α] [ExactScalar α] {L : Layout C}

theorem adds_renewed : Adds L (fun v : Vectors C α => .ok ⟨v.buffers.renewed⟩) 0 :=
  adds_zero fun _ hv => ⟨_, rfl, (fills_renewed hv).1, funext fun u => (fills_renewed hv).2 u⟩

theorem exists_adds_scatterAdd (a : Handle (Item α)) (x : Block α) :
    ∃ d, Adds L (fun v : Vectors C α => v.scatterAdd a x) d := by
  by_cases hkey : Key.type a.type ∈ L.keys
  case neg =>
    refine ⟨⊤, .fails fun v hv => ?_⟩
    unfold scatterAdd
    dsimp only
    rw [hv.outside _ hkey]
    exact ⟨_, rfl⟩
  cases hindex : Residence.device.places a.index with
  | error e =>
    refine ⟨⊤, .fails fun v hv => ?_⟩
    obtain ⟨t, ht, -⟩ := hv.holds _ hkey
    rw [scatterAdd_of_rows ht.2, hindex]
    exact ⟨e, rfl⟩
  | ok index =>
    rcases Block.putAdd?_uniform (L.rows (.type a.type)) (L.width (.type a.type)) index x with
      hnone | ⟨sums, hsums⟩
    · refine ⟨⊤, .fails fun v hv => ?_⟩
      obtain ⟨t, ht, hshape⟩ := hv.holds _ hkey
      rw [scatterAdd_of_rows ht.2, hindex, Checked.ok_bind, hnone t hshape]
      exact ⟨_, rfl⟩
    · refine ⟨(fun u : L.cells => if u.1.1 = .type a.type then sums u.1.2 else 0 : L.cells → α),
        .adds fun v hv => ?_⟩
      obtain ⟨t, ht, hshape⟩ := hv.holds _ hkey
      obtain ⟨r, hr, hrshape, hentry⟩ := hsums t hshape
      let b := (v.buffer (.type a.type)).holding (.values (.ofBlock (.reals r))) .device
      have hb : b.Holds (.type a.type) r := ⟨ht.1, rfl⟩
      refine ⟨⟨v.buffers.insert (.type a.type) b⟩, ?_, hv.insert hkey hb hrshape,
        funext fun ⟨⟨key, k⟩, hu⟩ => ?_⟩
      · rw [scatterAdd_of_rows ht.2, hindex, Checked.ok_bind, hr]
        rfl
      have hk := (Layout.mem_cells.1 hu).2
      show Buffer.coordinate (Buffers.buffer (v.buffers.insert (.type a.type) b) key) k = _
      rw [Buffers.buffer_insert]
      by_cases hsame : key = .type a.type
      · subst hsame
        have hvolume : ∀ {t : Tensor α}, t.shape = [L.rows (.type a.type), L.width (.type a.type)] →
            k < t.shape.volume := fun hshape => by
          rw [hshape, Shape.volume_matrix]
          exact hk
        rw [if_pos rfl, hb.coordinate (hvolume hrshape), hentry k hk, Pi.add_apply, if_pos rfl]
        exact congrArg (· + sums k) (ht.coordinate (hvolume hshape)).symm
      · rw [if_neg hsame, Pi.add_apply, if_neg hsame, add_zero]
        rfl

end Scattered

end Vectors

/-! ## Slots -/

namespace Factor

section Slots

variable {C α : Type} [DecidableEq C] [LinearOrder α] [ExactScalar α] {L : Layout C}

theorem exists_adds_accumulate (rows : List (List (Handle (Block α) × Block α))) :
    ∃ d, Vectors.Adds L (fun v : Vectors C α => accumulate rows v) d := by
  have hslot : ∀ slot ∈ slots rows, ∃ d, Vectors.Adds L (fun v : Vectors C α => slot.addInto v) d :=
    fun slot _ => Vectors.exists_adds_of_run (fitting (Block.stack? (slot.parts.map (·.1)))) fun index _ =>
      Vectors.exists_adds_of_run (fitting (Block.stack? (slot.parts.map (·.2)))) fun x _ =>
        Vectors.exists_adds_scatterAdd _ x
  obtain ⟨d, hd⟩ := Vectors.exists_adds_foldlM (f := fun (v : Vectors C α) slot => Slot.addInto slot v) hslot
  exact ⟨_, (hd.bind Vectors.adds_renewed).congr fun _ => rfl⟩

/-- A vector in the tangent space of a variable, with a handle that addresses a row. -/
def Contributes (L : Layout C) (t : VariableType) (p : Handle (Block α) × Block α) : Prop :=
  p.1.type = t ∧ p.1.Points L ∧ ∃ v, p.2 = .reals v ∧ v.shape = [t.tangentDim]

/-- What a vector adds to a cell: a coordinate, in the row that its handle addresses. -/
def deposit (L : Layout C) (p : Handle (Block α) × Block α) : L.cells → α := fun u =>
  if u.1.1 = .type p.1.type then
    if target (L.rows u.1.1) (p.1.index.toInts.entry 0) = some (u.1.2 / L.width u.1.1) then
      p.2.toReals.entry (u.1.2 % L.width u.1.1)
    else 0
  else 0

/-- What all vectors of a factor add. -/
def deposits (L : Layout C) (row : List (Handle (Block α) × Block α)) : L.cells → α :=
  (row.map (deposit L)).sum

/-- Slot `k` of some contributions, as a term. -/
def slotTerm (rows : List (List (Handle (Block α) × Block α))) (t : VariableType) (k : Nat) : Term α :=
  let entry i := ((rows.getD i []).getD k (⟨t, .int 0⟩, .int 0))
  ⟨t, fun i => (entry i).1.index.toInts.entry 0, fun i _ c => (entry i).2.toReals.entry c⟩

/-- Contributions to variables of the same types, added up slot by slot, add what each factor
deposits. -/
theorem accumulate_of_contributes (hL : L.Tangent) {types : List VariableType}
    {rows : List (List (Handle (Block α) × Block α))}
    (hrows : ∀ row ∈ rows, List.Forall₂ (Contributes L) types row) {out : Vectors C α}
    (hout : out.Fills L) :
    ∃ w, accumulate rows out = .ok w ∧ w.Fills L ∧
      w.onCells L = out.onCells L + (rows.map (deposits L)).sum := by
  by_cases hne : rows = []
  · subst hne
    obtain ⟨hfills, hsame⟩ := Vectors.fills_renewed hout
    have hcells : (⟨out.buffers.renewed⟩ : Vectors C α).onCells L = out.onCells L :=
      funext fun u => hsame u
    exact ⟨_, rfl, hfills, hcells.trans (add_zero _).symm⟩
  have hentry : ∀ i (hi : i < rows.length) k (hk : k < types.length),
      ∃ hk' : k < rows[i].length, (rows.getD i []).getD k (⟨types[k], .int 0⟩, .int 0) = rows[i][k] ∧
        Contributes L types[k] rows[i][k] := by
    intro i hi k hk
    have hrow := hrows rows[i] (List.getElem_mem hi)
    have hk' : k < rows[i].length := hrow.length_eq ▸ hk
    refine ⟨hk', ?_, hrow.get hk hk'⟩
    rw [List.getD_eq_getElem _ _ hi, List.getD_eq_getElem _ _ hk']
  obtain ⟨terms, hterms, hterm⟩ : ∃ terms : List (Term α), terms.length = types.length ∧
      ∀ k (hk : k < types.length) (hk' : k < terms.length), terms[k] = slotTerm rows types[k] k :=
    ⟨types.zipIdx.map fun p => slotTerm rows p.1 p.2, by simp, fun k hk hk' => by simp⟩
  have hsends : List.Forall₂ (fun i row => List.Forall₂ (Sends (fun _ => 1) i 1) terms row)
      (List.range rows.length) rows := by
    refine List.forall₂_iff_get.2 ⟨by simp, fun i hi hi' => List.forall₂_iff_get.2 ⟨?_, ?_⟩⟩
    · exact hterms.trans (hrows rows[i] (List.getElem_mem hi')).length_eq
    · intro k hk hk'
      have hkt : k < types.length := hterms ▸ hk
      obtain ⟨_, hget, htype, ⟨-, index, hindex, hshape, -⟩, v, hv, hvshape⟩ := hentry i hi' k hkt
      simp only [List.get_eq_getElem, List.getElem_range]
      rw [hterm k hkt hk]
      refine ⟨htype, ?_, v, hv, hvshape, fun c _ => ?_⟩
      · simp only [slotTerm, hget]
        exact ⟨index, hindex, hshape, by rw [hindex]; rfl⟩
      · simp only [slotTerm, hget, hv, Finset.sum_range_one, one_mul]
        rfl
  have hkeys : ∀ T ∈ terms, Key.type T.type ∈ L.keys := by
    intro T hT
    obtain ⟨k, hk, rfl⟩ := List.getElem_of_mem hT
    have hkt : k < types.length := hterms ▸ hk
    obtain ⟨_, -, htype, ⟨hkey, -⟩, -⟩ := hentry 0 (List.length_pos_of_ne_nil hne) k hkt
    rw [hterm k hkt hk]
    exact htype ▸ hkey
  obtain ⟨w, hw, hfills, hcoordinate⟩ :=
    accumulate_of_collects (List.length_pos_of_ne_nil hne) hL hkeys hsends hout
  refine ⟨w, hw, hfills, funext fun u => (hcoordinate u u.2).trans ?_⟩
  -- the coefficients of the terms in row `i` are the deposits of factor `i`
  have hrow : ∀ i (hi : i < rows.length), terms.map (fun T => T.coefficient L i 0 u) =
      rows[i].map fun p => deposit L p u := by
    intro i hi
    have hlength := (hrows rows[i] (List.getElem_mem hi)).length_eq
    refine List.ext_getElem (by simp [hterms, hlength]) fun k hk hk' => ?_
    have hkt : k < types.length := by simpa [hterms] using hk
    obtain ⟨_, hget, htype, -⟩ := hentry i hi k hkt
    rw [List.getElem_map, List.getElem_map, hterm k hkt, Term.coefficient, deposit]
    simp only [slotTerm, hget, htype]
  show Vectors.coordinate out u + _ = Vectors.coordinate out u + (rows.map (deposits L)).sum u
  refine congrArg (Vectors.coordinate out u + ·) ?_
  rw [Pi.list_sum_apply, List.map_map, ← Block.sum_map_range]
  refine congrArg List.sum (List.ext_getElem (by simp) fun i hi hi' => ?_)
  have hi : i < rows.length := by simpa using hi
  rw [List.getElem_map, List.getElem_map, List.getElem_range, Finset.sum_range_one, one_mul, hrow i hi,
    Function.comp_apply, deposits, Pi.list_sum_apply, List.map_map]
  rfl

/-- The same, as a step. -/
theorem adds_accumulate (hL : L.Tangent) {types : List VariableType}
    {rows : List (List (Handle (Block α) × Block α))}
    (hrows : ∀ row ∈ rows, List.Forall₂ (Contributes L) types row) :
    Vectors.Adds L (accumulate rows) ((rows.map (deposits L)).sum : L.cells → α) :=
  .adds fun _ hv => accumulate_of_contributes hL hrows hv

theorem forall₂_zip {β γ : Type} {R : β → γ → Prop} {l : List β} {l' : List γ}
    (h : List.Forall₂ R l l') : List.Forall₂ (fun b p => p.1 = b ∧ R b p.2) l (l.zip l') := by
  induction h with
  | nil => exact .nil
  | cons hR _ ih => exact .cons ⟨rfl, hR⟩ ih

omit [DecidableEq C] [LinearOrder α] [ExactScalar α] in
/-- Vectors of the sizes of their variables. -/
theorem contributes_zip {handles : List (Handle (Block α))} {vs : List (Block α)}
    (h : List.Forall₂ (fun a b => ∃ v, b = .reals v ∧ v.shape = [a.type.tangentDim]) handles vs)
    (hpoints : ∀ a ∈ handles, a.Points L) :
    List.Forall₂ (Contributes L) (handles.map (·.type)) (handles.zip vs) := by
  have hpoint := (List.forall₂_and_left (p := (· ∈ handles)) _ _).2 ⟨fun _ ha => ha, forall₂_zip h⟩
  rw [List.forall₂_map_left_iff]
  refine hpoint.imp fun a p hp => ?_
  obtain ⟨ha, rfl, hv⟩ := hp
  exact ⟨rfl, hpoints _ ha, hv⟩

end Slots

/-! ## Stacks -/

/-- What a factor contributes to the gradient: a vector at each handle of its differentiable part. -/
def contribution {C α : Type} [FactorFamily C] [Scalar α] (read : Reader α)
    (f : FactorStack C α) : Checked (List (Handle (Block α) × Block α)) := do
  let (part, ws) ← f.component (← f.values read)
  return part.handles.zip (← part.errorGradient ws)

section Stacks

variable {C α : Type} [DecidableEq C] [FactorFamily C] [LinearOrder α] [ExactScalar α] {L : Layout C}
  {f : FactorStack C α} {read : Reader α}

omit [DecidableEq C] in
/-- The gradient of a factor is split by variable into vectors of the sizes of their tangent spaces. -/
theorem forall₂_errorGradient {part : FactorStack C α} {ws : List (Found α)} {vs : List (Block α)}
    (h : part.errorGradient ws = .ok vs) :
    List.Forall₂ (fun a b => ∃ v, b = .reals v ∧ v.shape = [a.type.tangentDim]) part.handles vs := by
  obtain ⟨moving, -, h⟩ := Checked.bind_eq_ok h
  obtain ⟨error, -, h⟩ := Checked.bind_eq_ok h
  rw [← Except.ok.inj h, List.forall₂_map_right_iff]
  exact part.forall₂_inputs.imp fun a p hp => ⟨_, rfl, by rw [← hp]; rfl⟩

omit [DecidableEq C] in
theorem contributes_errorGradient {part : FactorStack C α} {ws : List (Found α)} {vs : List (Block α)}
    (h : part.errorGradient ws = .ok vs) (hpoints : ∀ a ∈ part.handles, a.Points L) :
    List.Forall₂ (Contributes L) part.types (part.handles.zip vs) :=
  contributes_zip (forall₂_errorGradient h) hpoints

omit [DecidableEq C] in
theorem contribution_eq_ok {row : List (Handle (Block α) × Block α)}
    (h : f.contribution read = .ok row) : ∃ values part ws vs, f.values read = .ok values ∧
      f.component values = .ok (part, ws) ∧ part.errorGradient ws = .ok vs ∧
      row = part.handles.zip vs := by
  obtain ⟨values, hvalues, h⟩ := Checked.bind_eq_ok h
  obtain ⟨⟨part, ws⟩, hpart, h⟩ := Checked.bind_eq_ok h
  obtain ⟨vs, hvs, h⟩ := Checked.bind_eq_ok h
  exact ⟨values, part, ws, vs, hvalues, hpart, hvs, (Except.ok.inj h).symm⟩

theorem stackGradient_eq {rows : List (FactorStack C α)} (hrows : f.rows = .ok rows)
    (out : Vectors C α) : f.stackGradient read out =
      rows.mapM (contribution read) >>= fun contributions => accumulate contributions out := by
  unfold stackGradient overRows
  rw [hrows]
  rfl

omit [FactorFamily C] in
/-- The steps that scatter what some factors come to add what each of them deposits. -/
theorem adds_of_rows {γ : Type} (hL : L.Tangent) {types : List VariableType}
    {F : γ → Checked (List (Handle (Block α) × Block α))} {xs : List γ}
    (h : ∀ x ∈ xs, ∀ row, F x = .ok row → List.Forall₂ (Contributes L) types row) :
    Vectors.Adds L (fun v => xs.mapM F >>= fun rows => accumulate rows v)
      (xs.map fun x => amount ((F x).map (deposits L))).sum := by
  rw [← Checked.amount_mapM]
  cases hrun : xs.mapM F with
  | error e => exact .fails fun v _ => ⟨e, rfl⟩
  | ok rows =>
    have hspec := Checked.forall₂_of_mapM hrun
    have hrows : ∀ row ∈ rows, List.Forall₂ (Contributes L) types row := by
      intro row hrow
      obtain ⟨i, hi, rfl⟩ := List.getElem_of_mem hrow
      have hi' : i < xs.length := hspec.length_eq ▸ hi
      exact h _ (List.getElem_mem hi') _ (hspec.get hi' hi)
    exact adds_accumulate hL hrows

theorem adds_stackGradient (hL : L.Tangent) {rows : List (FactorStack C α)} (hrows : f.rows = .ok rows)
    {types : List VariableType} (h : ∀ r ∈ rows, ∀ row, r.contribution read = .ok row →
      List.Forall₂ (Contributes L) types row) :
    Vectors.Adds L (f.stackGradient read)
      (rows.map fun r => amount ((r.contribution read).map (deposits L))).sum :=
  (adds_of_rows hL h).congr (stackGradient_eq hrows)

/-- Every stack adds some gradient, whatever there is already. -/
theorem exists_adds_stackGradient (f : FactorStack C α) (read : Reader α) :
    ∃ d, Vectors.Adds L (f.stackGradient read) d := by
  cases hrows : f.rows with
  | error e =>
    refine ⟨⊤, .fails fun v _ => ⟨e, ?_⟩⟩
    unfold stackGradient overRows
    rw [hrows]
    rfl
  | ok rows =>
    obtain ⟨d, hd⟩ := Vectors.exists_adds_of_run (L := L) (rows.mapM (contribution read))
      (f := accumulate) fun contributions _ => exists_adds_accumulate contributions
    exact ⟨d, hd.congr (stackGradient_eq hrows)⟩

/-- Every transpose adds some vectors, whatever there is already. -/
theorem exists_adds_stackAdjoint (f : FactorStack C α) (y : Block α) :
    ∃ d, Vectors.Adds L (f.stackAdjoint y) d := by
  obtain ⟨d, hd⟩ := Vectors.exists_adds_of_run (L := L) f.rows
    (f := fun rows (v : Vectors C α) => do
      if y.shape.head? ≠ some rows.length then misfit
      let contributions ← rows.zipIdx.mapM fun p => do
        return p.1.handles.zip (← p.1.adjoint (y.row p.2))
      accumulate contributions v) fun rows _ => by
    by_cases hcount : y.shape.head? ≠ some rows.length
    · refine ⟨⊤, .fails fun v _ => ⟨.misfit, ?_⟩⟩
      rw [if_pos hcount]
      rfl
    · simp only [if_neg hcount]
      exact Vectors.exists_adds_of_run _ fun contributions _ => exists_adds_accumulate contributions
  exact ⟨d, hd.congr fun v => rfl⟩

end Stacks

end Factor

end LeastSquares
