import LeastSquares.Proofs.Edit
import LeastSquares.Proofs.Graph.Linearize

/-!
# Damped graphs

Damping a linear graph appends one stack `s x` for each array of the template, behind the stacks that
are there. So each sum over the equations of the damped graph is that over the old equations and one
term more for each unknown, whose only coefficient is `s` and whose constant is zero. The error grows
by `s² / 2 ‖x‖²`, and the slope of the residuals by `s² x`.
-/

namespace LeastSquares

namespace LinearGraph

section Definitions

variable {C α : Type} [Scalar α]

/-- The group of factors that damp the variables of a type. -/
def dampingGroup (T : VariableType) : GroupKey C :=
  ⟨.scalarJacobian, [T], [[.leaf]], [[], []]⟩

/-- Factors that damp the first variables of a type. -/
def dampingStack (T : VariableType) (n : Nat) (s : α) : FactorStack C α :=
  ⟨.scalarJacobian, [⟨T, .range n⟩], [.leaf (.full [n] s)]⟩

/-- The entry that damps the unknowns under a key. -/
def dampingEntry (L : Layout C) (s : α) : Key C → Key C × Buffer C α
  | .type T => (.group (dampingGroup T), .of 
      (.factors (dampingStack T (L.rows (.type T)) s)) (.factors .scalarJacobian))
  | .group k => (.group k, .empty)

/-- The graph with other stacks in the same template. -/
abbrev withBuffers (g : LinearGraph C α) (buffers : Buffers C α) : LinearGraph C α :=
  { g with buffers := buffers }

end Definitions

/-! ## Appending the stacks -/

section Appending

variable {C α : Type} [DecidableEq C] [FactorFamily C] [Scalar α] {g : LinearGraph C α} {s : α}

omit [DecidableEq C] in
theorem jacobians_of_holds {b : Buffer C α} {T : VariableType} {t : Tensor α} {n width : Nat}
    (hb : b.Holds (.type T) t) (ht : t.shape = [n, width]) (hn : 0 < n) (s : α) :
    b.jacobians s =
      .ok (dampingGroup T, .of (.factors (dampingStack T n s)) (.factors .scalarJacobian)) := by
  have hrequire : require .someElement (decide (0 < n)) = .ok () := by
    rw [decide_eq_true hn, require_true]
  simp only [Buffer.jacobians, hb.1, hb.count ht, Checked.ok_bind, hrequire]
  rfl

omit [DecidableEq C] [FactorFamily C] [Scalar α] in
theorem dampingGroup_injective : Function.Injective (dampingGroup : VariableType → GroupKey C) := by
  intro T T' h
  simpa [dampingGroup] using h

/-- One step of damping, for a type that is not damped yet. -/
theorem dampAlong_cons {zeros : Buffer C α} {T : VariableType} {t : Tensor α} {n width : Nat}
    (hzeros : zeros.Holds (.type T) t) (ht : t.shape = [n, width]) (hn : 0 < n)
    (hfresh : Key.group (dampingGroup T) ∉ g.buffers.keys) (s : α) (rest : List (Key C × Buffer C α)) :
    dampAlong s ((.type T, zeros) :: rest) g =
      dampAlong s rest ⟨g.buffers.insert (.group (dampingGroup T))
        (.of (.factors (dampingStack T n s)) (.factors .scalarJacobian)), g.template⟩ := by
  have hcontains : g.buffers.contains (Key.group (dampingGroup T)) = false := by
    rw [← Bool.not_eq_true, Table.contains_iff]
    exact hfresh
  rw [dampAlong, Edit.lift_bind (jacobians_of_holds hzeros ht hn s)]
  dsimp only
  rw [Edit.get_bind, hcontains, Bool.not_false, Edit.lift_bind (require_true _)]
  rfl

/-- A type that is damped already stops the damping, before anything changes. -/
theorem dampAlong_damped {zeros : Buffer C α} {T : VariableType} {t : Tensor α} {n width : Nat}
    (hzeros : zeros.Holds (.type T) t) (ht : t.shape = [n, width]) (hn : 0 < n)
    (hmem : Key.group (dampingGroup T) ∈ g.buffers.keys) (s : α) (rest : List (Key C × Buffer C α)) :
    dampAlong s ((.type T, zeros) :: rest) g = .error (.broken (.undamped T.name)) g := by
  rw [dampAlong, Edit.lift_bind (jacobians_of_holds hzeros ht hn s)]
  dsimp only
  rw [Edit.get_bind, Table.contains_iff.2 hmem]
  rfl

/-- The first type that is damped already stops the damping. -/
theorem dampAlong_stops {L : Layout C} {entries : List (Key C × Buffer C α)}
    (hentries : ∀ e ∈ entries, ∃ T t, e.1 = .type T ∧ e.2.Holds (.type T) t ∧
      0 < L.rows (.type T) ∧ t.shape = [L.rows (.type T), T.tangentDim])
    (distinct : (entries.map Prod.fst).Nodup) {T : VariableType}
    (hT : Key.type T ∈ entries.map Prod.fst) (hmem : Key.group (dampingGroup T) ∈ g.buffers.keys) :
    ∃ T' g', Key.type T' ∈ entries.map Prod.fst ∧ Key.group (dampingGroup T') ∈ g.buffers.keys ∧
      dampAlong s entries g = .error (.broken (.undamped T'.name)) g' := by
  induction entries generalizing g with
  | nil => simp at hT
  | cons e rest ih =>
    obtain ⟨key, zeros⟩ := e
    obtain ⟨T₀, t, rfl, hzeros, hn, hshape⟩ := hentries (key, zeros) (by simp)
    by_cases hfirst : Key.group (dampingGroup T₀) ∈ g.buffers.keys
    · exact ⟨T₀, g, by simp, hfirst, dampAlong_damped hzeros hshape hn hfirst s rest⟩
    · rw [dampAlong_cons hzeros hshape hn hfirst]
      rw [List.map_cons, List.nodup_cons] at distinct
      have hrest : Key.type T ∈ rest.map Prod.fst := by
        rw [List.map_cons, List.mem_cons] at hT
        refine hT.resolve_left fun hsame => hfirst ?_
        rwa [← Key.type.inj hsame]
      let added : Buffer C α :=
        .of (.factors (dampingStack T₀ (L.rows (.type T₀)) s)) (.factors .scalarJacobian)
      have hkeys := Table.keys_insert_of_not_mem hfirst (v := added)
      obtain ⟨T', g', hT', hmem', hstops⟩ :=
        ih (g := ⟨g.buffers.insert (.group (dampingGroup T₀)) added, g.template⟩)
          (fun e he => hentries e (by simp [he])) distinct.2 hrest
          (hkeys ▸ List.mem_append_left _ hmem)
      rw [hkeys, List.mem_append, List.mem_singleton] at hmem'
      -- the group just added is of a type that does not come again
      refine ⟨T', g', by simp [hT'], hmem'.resolve_right fun hsame => distinct.1 ?_, hstops⟩
      rwa [← dampingGroup_injective (Key.group.inj hsame)]

/-- What was damped had not been damped before. -/
theorem fresh_of_dampAlong {L : Layout C} {entries : List (Key C × Buffer C α)} {g' : LinearGraph C α}
    (hentries : ∀ e ∈ entries, ∃ T t, e.1 = .type T ∧ e.2.Holds (.type T) t ∧
      0 < L.rows (.type T) ∧ t.shape = [L.rows (.type T), T.tangentDim])
    (distinct : (entries.map Prod.fst).Nodup) (h : dampAlong s entries g = .ok () g') {T : VariableType}
    (hT : Key.type T ∈ entries.map Prod.fst) : Key.group (dampingGroup T) ∉ g.buffers.keys := by
  intro hmem
  obtain ⟨T', g'', -, -, hstops⟩ := dampAlong_stops hentries distinct hT hmem
  cases hstops.symm.trans h

theorem dampAlong_entries {L : Layout C} {entries : List (Key C × Buffer C α)}
    (hentries : ∀ e ∈ entries, ∃ T t, e.1 = .type T ∧ e.2.Holds (.type T) t ∧
      0 < L.rows (.type T) ∧ t.shape = [L.rows (.type T), T.tangentDim])
    (distinct : (entries.map Prod.fst).Nodup)
    (hfresh : ∀ T, Key.type T ∈ entries.map Prod.fst → Key.group (dampingGroup T) ∉ g.buffers.keys) :
    ∃ buffers : Buffers C α, dampAlong s entries g = .ok () ⟨buffers, g.template⟩ ∧
      buffers.entries = g.buffers.entries ++ (entries.map Prod.fst).map (dampingEntry L s) := by
  induction entries generalizing g with
  | nil => exact ⟨g.buffers, rfl, by simp⟩
  | cons e rest ih =>
    obtain ⟨key, zeros⟩ := e
    obtain ⟨T, t, rfl, hzeros, hn, hshape⟩ := hentries (key, zeros) (by simp)
    rw [List.map_cons, List.nodup_cons] at distinct
    have hnew := hfresh T (by simp)
    have hkeys := Table.keys_insert_of_not_mem hnew
      (v := Buffer.of (.factors (dampingStack T (L.rows (.type T)) s)) (.factors .scalarJacobian))
    rw [dampAlong_cons hzeros hshape hn hnew]
    obtain ⟨buffers, hdamped, hall⟩ := ih (g := ⟨_, g.template⟩)
      (fun e he => hentries e (by simp [he])) distinct.2 fun T' hT' hmem => by
        rw [hkeys, List.mem_append, List.mem_singleton] at hmem
        rcases hmem with hmem | hsame
        · exact hfresh T' (by simp [hT']) hmem
        · rw [dampingGroup_injective (Key.group.inj hsame)] at hT'
          exact distinct.1 hT'
    refine ⟨buffers, hdamped, ?_⟩
    rw [hall, Table.entries_insert_of_not_mem hnew, List.append_assoc]
    rfl

end Appending

/-! ## The stacks of a damped graph -/

section Stacks

variable {C α : Type} [DecidableEq C] [Scalar α] {g : LinearGraph C α} {s : α}
  {buffers : Buffers C α}

omit [Scalar α] in
/-- The old stacks are still there. -/
theorem stack_withBuffers (hentries : buffers.entries =
      g.buffers.entries ++ g.template.buffers.keys.map (dampingEntry g.unknowns s))
    {key : Key C} (hkey : key ∈ g.buffers.keys) :
    (g.withBuffers buffers).stack key = g.stack key := by
  obtain ⟨b, hb⟩ := Table.mem_keys_iff.1 hkey
  have hover : buffers.get? key = some b := by
    rw [Table.get?_eq_some_iff, hentries]
    exact List.mem_append_left _ (Table.get?_eq_some_iff.1 hb)
  rw [stack, stack, Buffers.buffer_of_get? hb, Buffers.buffer_of_get? hover]

omit [Scalar α] in
theorem get?_damping (hentries : buffers.entries =
      g.buffers.entries ++ g.template.buffers.keys.map (dampingEntry g.unknowns s))
    {T : VariableType} (hT : Key.type T ∈ g.template.buffers.keys) :
    buffers.get? (.group (dampingGroup T)) =
      some (.of (.factors (dampingStack T (g.unknowns.rows (.type T)) s))
        (.factors .scalarJacobian)) := by
  rw [Table.get?_eq_some_iff, hentries]
  exact List.mem_append_right _ (List.mem_map_of_mem hT)

omit [Scalar α] in
theorem stack_damping (hentries : buffers.entries =
      g.buffers.entries ++ g.template.buffers.keys.map (dampingEntry g.unknowns s))
    {T : VariableType} (hT : Key.type T ∈ g.template.buffers.keys) :
    (g.withBuffers buffers).stack (.group (dampingGroup T)) =
      dampingStack T (g.unknowns.rows (.type T)) s := by
  rw [stack, Buffers.buffer_of_get? (get?_damping hentries hT)]
  rfl

omit [DecidableEq C] [Scalar α] in
/-- The factors that damp a type are linear, one for each variable. -/
theorem linear_dampingStack {L : Layout C} {T : VariableType} (hT : Key.type T ∈ L.keys) (s : α) :
    (dampingStack T (L.rows (.type T)) s).Linear L (L.rows (.type T)) T.tangentDim := by
  refine .scalarJacobian rfl ⟨hT, _, rfl, rfl, fun i hi => ⟨i, ?_⟩⟩
  rw [Tensor.entry_generate (by simpa using hi)]
  exact Access.locate_of_lt hi

end Stacks

/-! ## What can be damped -/

variable {C α : Type} [DecidableEq C] [LinearOrder α] [ExactScalar α] {g : LinearGraph C α} {s : α}

/-- The template holds zero tangent vectors, for at least one variable of each of its types. -/
def ZeroTemplate (g : LinearGraph C α) : Prop :=
  ∀ e ∈ g.template.buffers.entries, ∃ T n t, e.1 = .type T ∧ 0 < n ∧ e.2.Holds (.type T) t ∧
    t.shape = [n, T.tangentDim] ∧ ∀ k, k < t.shape.volume → t.entry k = 0

/-- A graph in the tangent vectors of at least one variable of each type, none of which is damped yet. -/
structure Dampable (g : LinearGraph C α) : Prop where
  wellFormed : g.WellFormed
  template : g.ZeroTemplate
  undamped : ∀ T, Key.type T ∈ g.template.buffers.keys → Key.group (dampingGroup T) ∉ g.buffers.keys

theorem ZeroTemplate.rows (h : g.ZeroTemplate) {e : Key C × Buffer C α}
    (he : e ∈ g.template.buffers.entries) : ∃ T t, e.1 = .type T ∧ e.2.Holds (.type T) t ∧
      0 < g.unknowns.rows (.type T) ∧ t.shape = [g.unknowns.rows (.type T), T.tangentDim] := by
  obtain ⟨T, n, t, hkey, hn, ht, hshape, -⟩ := h e he
  have hrows : g.unknowns.rows (.type T) = n := by
    show (g.template.buffers.buffer (.type T)).extents.1 = n
    rw [Buffers.buffer_of_get? (b := e.2) (by rw [← hkey]; exact Table.get?_eq_some_iff.2 he),
      Buffer.extents, ht.2]
    show t.shape.headD 0 = n
    rw [hshape]
    rfl
  exact ⟨T, t, hkey, ht, by rwa [hrows], by rwa [hrows]⟩

theorem ZeroTemplate.keys_unknowns (h : g.ZeroTemplate) :
    g.unknowns.keys = g.template.buffers.keys.toFinset := by
  refine Finset.filter_true_of_mem fun key hkey => ?_
  obtain ⟨b, hb⟩ := Table.mem_keys_iff.1 (List.mem_toFinset.1 hkey)
  obtain ⟨T, t, -, ht, -⟩ := h.rows (Table.get?_eq_some_iff.1 hb)
  rw [show g.template.buffer key = b from Buffers.buffer_of_get? hb]
  exact ht.isEmpty

theorem ZeroTemplate.type_of_mem (h : g.ZeroTemplate) {key : Key C}
    (hkey : key ∈ g.template.buffers.keys) : ∃ T, key = .type T ∧ 0 < g.unknowns.rows (.type T) := by
  obtain ⟨b, hb⟩ := Table.mem_keys_iff.1 hkey
  obtain ⟨T, -, hT, -, hn, -⟩ := h.rows (Table.get?_eq_some_iff.1 hb)
  exact ⟨T, hT, hn⟩

/-! ## The damped problem -/

section Damped

variable {buffers : Buffers C α} (hg : g.Dampable) (hentries : buffers.entries =
  g.buffers.entries ++ g.template.buffers.keys.map (dampingEntry g.unknowns s))

include hg hentries in
theorem Dampable.wellFormed_withBuffers : (g.withBuffers buffers).WellFormed where
  template := hg.wellFormed.template
  groups key b hb := by
    have hmem := Table.get?_eq_some_iff.1 hb
    rw [show (g.withBuffers buffers).buffers.entries = _ from hentries, List.mem_append] at hmem
    rcases hmem with hmem | hmem
    · exact hg.wellFormed.groups key b (Table.get?_eq_some_iff.2 hmem)
    · obtain ⟨key', hkey, heq⟩ := List.mem_map.1 hmem
      obtain ⟨T, rfl, hn⟩ := hg.template.type_of_mem hkey
      cases heq
      have hT : Key.type T ∈ g.unknowns.keys := by
        rw [hg.template.keys_unknowns]
        exact List.mem_toFinset.2 hkey
      exact ⟨_, _, _, rfl, hn, linear_dampingStack hT s⟩

/-- A factor that damps a type has the coefficient `s` at one coordinate of its variable. -/
theorem coefficient_dampingStack {L : Layout C} {T : VariableType}
    (hwidth : L.width (.type T) = T.tangentDim) {i j : Nat} (hi : i < L.rows (.type T))
    (hj : j < T.tangentDim) (s : α) (v : Key C × Nat) :
    (dampingStack T (L.rows (.type T)) s).coefficient L i j v =
      if v = (.type T, i * T.tangentDim + j) then s else 0 := by
  obtain ⟨key, k⟩ := v
  have hplace : target (L.rows (.type T)) ((Block.range (α := α) (L.rows (.type T))).toInts.entry i) =
      some i := by
    rw [show (Block.range (L.rows (.type T)) : Block α).toInts.entry i = i from
      Tensor.entry_generate (by simpa using hi)]
    exact Access.locate_of_lt hi
  have hscalar : ((Block.full [L.rows (.type T)] s).row i).toReals.entry 0 = s := by
    have hcell : i * Shape.volume [] + 0 < Shape.volume [L.rows (.type T)] := by simpa using hi
    have hshape : (Block.full [L.rows (.type T)] s).shape = [L.rows (.type T)] := rfl
    rw [Block.entry_toReals_row hshape hi (show 0 < Shape.volume [] by decide)]
    exact Tensor.entry_generate (f := fun _ => s) hcell
  have hsum : (dampingStack T (L.rows (.type T)) s).coefficient L i j (key, k) =
      (Factor.Term.ofScalar ⟨T, .range (L.rows (.type T))⟩ (.full [L.rows (.type T)] s)).coefficient
        L i j (key, k) := add_zero _
  rw [hsum]
  unfold Factor.Term.coefficient Factor.Term.ofScalar
  simp only [hscalar]
  by_cases hkey : key = .type T
  · subst hkey
    simp only [if_true, hplace, hwidth, Option.some.injEq, Prod.mk.injEq, true_and, Scalar.zero_eq]
    by_cases hk : k = i * T.tangentDim + j
    · rw [hk, Shape.cell_div hj, Shape.cell_mod hj, if_pos rfl, if_pos rfl, if_pos rfl]
    · rw [if_neg hk]
      split
      next hdiv =>
        refine if_neg fun hmod => hk ?_
        rw [hdiv, hmod, Nat.mul_comm]
        exact (Nat.div_add_mod k _).symm
      next => rfl
  · simp [hkey]

include hg hentries in
/-- The equations that damp a type: `s x = 0`, one for each unknown. -/
theorem Dampable.equations_damping {T : VariableType}
    (hkey : Key.type T ∈ g.template.buffers.keys) :
    (g.withBuffers buffers).equations.size (.group (dampingGroup T)) =
        g.unknowns.size (.type T) ∧
      ∀ k, k < g.unknowns.size (.type T) →
        (g.withBuffers buffers).coefficient (.group (dampingGroup T), k) =
            (fun v => if v = (.type T, k) then s else 0) ∧
          (g.withBuffers buffers).constant (.group (dampingGroup T), k) = 0 := by
  have hT : Key.type T ∈ g.unknowns.keys := by
    rw [hg.template.keys_unknowns]
    exact List.mem_toFinset.2 hkey
  have hwidth := hg.wellFormed.tangent T hT
  have hlinear := linear_dampingStack hT s
  have hstack := stack_damping hentries hkey
  have hrows : (g.withBuffers buffers).equations.rows (.group (dampingGroup T)) =
      g.unknowns.rows (.type T) := by
    simp only [equations, hstack, hlinear.count_eq]
    rfl
  have hcolumns : (g.withBuffers buffers).equations.width (.group (dampingGroup T)) =
      T.tangentDim := by
    simp only [equations, hstack, hlinear.residualDim_eq]
  refine ⟨by rw [Layout.size, Layout.size, hrows, hcolumns, hwidth], fun k hk => ⟨?_, ?_⟩⟩
  · rw [Layout.size, hwidth] at hk
    have hpos : 0 < T.tangentDim := Nat.pos_of_ne_zero fun hzero => by simp [hzero] at hk
    funext v
    simp only [coefficient, hstack, hcolumns]
    have hcell := coefficient_dampingStack hwidth
      (Nat.div_lt_of_lt_mul (by rwa [Nat.mul_comm])) (Nat.mod_lt k hpos) s v
    rw [Nat.mul_comm (k / _), Nat.div_add_mod] at hcell
    exact hcell
  · simp only [constant, hstack]
    exact Scalar.zero_eq

include hg hentries in
/-- A sum over the equations of the damped graph: over the old ones, and one term more for each
unknown. -/
theorem Dampable.sum_withBuffers {β : Type} [AddCommMonoid β] (Φ : (Key C × Nat → α) → α → β) :
    ∑ e ∈ (g.withBuffers buffers).equations.cells,
        Φ ((g.withBuffers buffers).coefficient e) ((g.withBuffers buffers).constant e) =
      ∑ e ∈ g.equations.cells, Φ (g.coefficient e) (g.constant e) +
        ∑ u ∈ g.unknowns.cells, Φ (fun v => if v = u then s else 0) 0 := by
  have hkeys : (g.withBuffers buffers).buffers.keys = g.buffers.keys ++
      g.template.buffers.keys.map fun key => (dampingEntry g.unknowns s key).1 := by
    rw [Table.keys, show (g.withBuffers buffers).buffers.entries = _ from hentries, List.map_append,
      List.map_map]
    rfl
  rw [Layout.sum_cells_of_keys (L := (g.withBuffers buffers).equations) rfl buffers.distinct,
    Layout.sum_cells_of_keys (L := g.equations) rfl g.buffers.distinct,
    Layout.sum_cells_of_keys hg.template.keys_unknowns g.template.buffers.distinct, hkeys, List.map_append,
    List.sum_append, List.map_map]
  congr 2
  · refine List.map_congr_left fun key hkey => ?_
    have hstack := stack_withBuffers hentries hkey
    have hcoefficient : ∀ k, (g.withBuffers buffers).coefficient (key, k) = g.coefficient (key, k) :=
      fun k => funext fun u => by
        simp only [coefficient, equations, hstack]
        rfl
    simp only [Layout.size, equations, constant, hstack, hcoefficient]
  · refine List.map_congr_left fun key hkey => ?_
    obtain ⟨T, rfl, hn⟩ := hg.template.type_of_mem hkey
    obtain ⟨hsize, hequation⟩ := hg.equations_damping hentries hkey
    show ∑ k ∈ Finset.range ((g.withBuffers buffers).equations.size (.group (dampingGroup T))),
      Φ ((g.withBuffers buffers).coefficient (.group (dampingGroup T), k))
        ((g.withBuffers buffers).constant (.group (dampingGroup T), k)) = _
    rw [hsize]
    refine Finset.sum_congr rfl fun k hk => ?_
    obtain ⟨hcoefficient, hconstant⟩ := hequation k (Finset.mem_range.1 hk)
    rw [hcoefficient, hconstant]

open Matrix

include hg hentries in
theorem Dampable.sum_cells_withBuffers {β : Type} [AddCommMonoid β]
    (Φ : (Key C × Nat → α) → α → β) :
    ∑ e : (g.withBuffers buffers).equations.cells,
        Φ ((g.withBuffers buffers).coefficient e) ((g.withBuffers buffers).constant e) =
      ∑ e : g.equations.cells, Φ (g.coefficient e) (g.constant e) +
        ∑ u : g.unknowns.cells, Φ (fun v => if v = u then s else 0) 0 := by
  rw [Finset.sum_coe_sort (g.withBuffers buffers).equations.cells fun e =>
      Φ ((g.withBuffers buffers).coefficient e) ((g.withBuffers buffers).constant e),
    Finset.sum_coe_sort g.equations.cells fun e => Φ (g.coefficient e) (g.constant e),
    Finset.sum_coe_sort g.unknowns.cells fun u => Φ (fun v => if v = u then s else 0) 0]
  exact hg.sum_withBuffers hentries Φ

theorem sum_single {L : Layout C} (s : α) (z : L.cells → α) (u : L.cells) :
    ∑ v : L.cells, (if (v : Key C × Nat) = u then s else 0) * z v = s * z u := by
  rw [Finset.sum_eq_single_of_mem u (Finset.mem_univ u) fun v _ hv => by
    rw [if_neg fun h => hv (Subtype.ext h), zero_mul], if_pos rfl]

include hg hentries in
/-- Twice the error of the damped graph. -/
theorem Dampable.residual_dot_withBuffers (z : g.unknowns.cells → α) :
    ((g.withBuffers buffers).rhs - (g.withBuffers buffers).matrix *ᵥ z) ⬝ᵥ
        ((g.withBuffers buffers).rhs - (g.withBuffers buffers).matrix *ᵥ z) =
      (g.rhs - g.matrix *ᵥ z) ⬝ᵥ (g.rhs - g.matrix *ᵥ z) + s ^ 2 * (z ⬝ᵥ z) := by
  refine (hg.sum_cells_withBuffers hentries fun c k =>
    (k - ∑ v : g.unknowns.cells, c v * z v) * (k - ∑ v : g.unknowns.cells, c v * z v)).trans ?_
  refine congrArg _ ?_
  rw [dotProduct, Finset.mul_sum]
  refine Finset.sum_congr rfl fun u _ => ?_
  rw [sum_single]
  ring

include hg hentries in
/-- The slope of the damped graph. -/
theorem Dampable.normal_withBuffers (z : g.unknowns.cells → α) :
    (g.withBuffers buffers).matrixᵀ *ᵥ
        ((g.withBuffers buffers).rhs - (g.withBuffers buffers).matrix *ᵥ z) =
      g.matrixᵀ *ᵥ (g.rhs - g.matrix *ᵥ z) - s ^ 2 • z := by
  refine funext fun u : g.unknowns.cells => ?_
  refine (hg.sum_cells_withBuffers hentries fun c k =>
    c u * (k - ∑ v : g.unknowns.cells, c v * z v)).trans ?_
  rw [Pi.sub_apply, sub_eq_add_neg]
  refine congrArg _ ?_
  -- only the row of the unknown itself has a coefficient there
  rw [Finset.sum_eq_single_of_mem u (Finset.mem_univ u) fun v _ hv =>
    (congrArg (· * _) (if_neg fun h => hv (Subtype.ext h.symm))).trans (zero_mul _)]
  refine (congrArg₂ (· * ·) (if_pos rfl) (congrArg (0 - ·) (sum_single s z u))).trans ?_
  rw [Pi.smul_apply, smul_eq_mul]
  ring

end Damped

variable [FactorFamily C]

/-- The damped graph has the old stacks, then one for each array of the template, which is the same. -/
theorem Dampable.damped (h : g.Dampable) (s : α) :
    ∃ buffers : Buffers C α, g.damped s = .ok ⟨buffers, g.template⟩ ∧
      buffers.entries =
        g.buffers.entries ++ g.template.buffers.keys.map (dampingEntry g.unknowns s) := by
  obtain ⟨buffers, hdamped, hentries⟩ := dampAlong_entries (s := s) (fun _ he => h.template.rows he)
    g.template.buffers.distinct h.undamped
  refine ⟨buffers, ?_, hentries⟩
  unfold LinearGraph.damped damp
  rw [Edit.get_bind, hdamped]

/-- A graph that was damped had not been damped before. -/
theorem dampable_of_damped (hg : g.WellFormed) (htemplate : g.ZeroTemplate) {g' : LinearGraph C α}
    (h : g.damped s = .ok g') : g.Dampable where
  wellFormed := hg
  template := htemplate
  undamped T hT := by
    have hdamp : dampAlong s g.template.buffers.entries g = .ok () g' := by
      unfold LinearGraph.damped damp at h
      rw [Edit.get_bind] at h
      split at h
      next g'' hg'' =>
        cases h
        exact hg''
      next => cases h
    exact fresh_of_dampAlong (fun _ he => htemplate.rows he) g.template.buffers.distinct hdamp hT

end LinearGraph

/-- The tangent vectors of a store are a template of zeros. -/
theorem LinearGraph.TangentTo.zeroTemplate {C α : Type} [DecidableEq C] [LinearOrder α]
    [ExactScalar α] {g : LinearGraph C α} {s : Store C α} (h : g.TangentTo s) : g.ZeroTemplate := by
  intro e he
  obtain ⟨T, hkey, hmem, hn, hzeros⟩ := h.get? (Table.get?_eq_some_iff.2 he)
  rw [hkey] at hmem hn hzeros
  have hholds : e.2.Holds (.type T)
      (.generate [s.layout.rows (.type T), T.tangentDim] fun _ => Scalar.zero) := by
    rw [hzeros]
    exact ⟨rfl, rfl⟩
  exact ⟨T, _, _, hkey, hn, hholds, rfl, fun k hk => (Tensor.entry_generate hk).trans Scalar.zero_eq⟩

namespace FactorGraph

variable {C α : Type} [DecidableEq C] [FactorFamily C] [LinearOrder α] [ExactScalar α]
  {graph : FactorGraph C α} {linear : LinearGraph C α} {s : Store C α}

omit [DecidableEq C] [FactorFamily C] [LinearOrder α] [ExactScalar α] in
/-- The graph has no group of scalar Jacobians. -/
def Undamped (graph : FactorGraph C α) : Prop :=
  ∀ group, Key.group group ∈ graph.buffers.keys → group.kind ≠ .scalarJacobian

/-- A linearised graph is one in the tangent vectors of the store. -/
theorem tangentTo_of_linearize (hs : s.WellFormed) (h : graph.linearize s = .ok linear) :
    linear.TangentTo s := by
  obtain ⟨buffers, -, h⟩ := Checked.bind_eq_ok h
  obtain ⟨z, hz, h⟩ := Checked.bind_eq_ok h
  cases h
  exact ⟨hs, hz⟩

/-- Its groups are among those of the graph. -/
theorem mem_keys_of_linearize (h : graph.linearize s = .ok linear) {key : Key C}
    (hkey : key ∈ linear.buffers.keys) : key ∈ graph.buffers.keys := by
  obtain ⟨buffers, hbuffers, h⟩ := Checked.bind_eq_ok h
  obtain ⟨z, -, h⟩ := Checked.bind_eq_ok h
  cases h
  obtain ⟨image, -, hentries⟩ := Table.exists_images hbuffers
  obtain ⟨e, he, rfl⟩ := List.mem_map.1 hkey
  rw [hentries] at he
  obtain ⟨v, hv, -⟩ := Table.mem_of_mem_images he
  exact List.mem_map.2 ⟨_, hv, rfl⟩

/-- A linearised graph can be damped. -/
theorem dampable_of_linearize (hs : s.WellFormed) (hundamped : graph.Undamped)
    (h : graph.linearize s = .ok linear) (hlinear : linear.WellFormed) : linear.Dampable where
  wellFormed := hlinear
  template := (tangentTo_of_linearize hs h).zeroTemplate
  undamped _ _ hT := hundamped _ (mem_keys_of_linearize h hT) rfl

theorem Proper.dampable (hs : s.WellFormed) (hg : graph.Proper s.layout) (hundamped : graph.Undamped)
    (h : graph.linearize s = .ok linear) : linear.Dampable :=
  dampable_of_linearize hs hundamped h (hg.wellFormed hs h)

end FactorGraph

end LeastSquares
