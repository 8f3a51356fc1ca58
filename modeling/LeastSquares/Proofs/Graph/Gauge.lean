import LeastSquares.Proofs.Factor.Relative
import LeastSquares.Proofs.Graph.Handles
import LeastSquares.Proofs.Graph.Stored

/-!
# Gauge

A graph of relative motions between elements of one group does not say where they are: its residuals,
its error and its gradient stay the same where all elements of the group are multiplied from the left by
one motion. It is enough that no factor sees the difference, since what stacks and graphs compute is
put together from what their factors compute.
-/

namespace LeastSquares

/-! ## Stores moved as a whole -/

namespace Tensor

variable {β : Type} [Scalar β]

/-- Row by row, elements multiplied from the left. -/
theorem row_mapRows_mulRow (g : LieGroup) (G : Nat → β) {t : Tensor β} {n k : Nat}
    (ht : t.shape = [n, g.paramDim]) (hk : k < n) :
    (t.mapRows g.paramDim (g.mulRow G)).row k = vector (g.mulRow G (t.row k).entry).toArray := by
  have hlead : t.lead = [n] := by rw [lead, ht]; rfl
  have hwidth : t.width = g.paramDim := by rw [width, ht]; rfl
  have hshape : (t.mapRows g.paramDim (g.mulRow G)).shape = [n, g.paramDim] := by
    rw [mapRows, hlead]
    rfl
  have hrow : g.mulRow G (t.coordinate [n] k) = g.mulRow G (t.row k).entry := by
    refine g.mulRow_congr (fun _ _ => rfl) fun i hi => ?_
    have hplace : Shape.project [n] (Shape.padded 1 [n]) k = k := by
      simp only [Shape.padded, Shape.project, List.length_cons, List.length_nil, Nat.sub_self,
        List.replicate_zero, List.nil_append, Shape.volume_nil, Nat.div_one, Nat.mul_one, Nat.add_zero]
      split <;> omega
    have hmin : min i (g.paramDim - 1) = i := by omega
    rw [coordinate, hlead, hwidth, List.length_singleton, hplace, hmin, entry_row ht k (by simpa using hi),
      Shape.volume_row]
  refine ext_entry (by rw [shape_row, hshape]; simp [vector]) fun j hj => ?_
  have hj : j < g.paramDim := by simpa [hshape] using hj
  have hcell : k * g.paramDim + j < Shape.volume [n, g.paramDim] := by
    rw [Shape.volume_matrix]
    exact Shape.cell_lt hk hj
  rw [entry_row hshape k (by simpa using hj), Shape.volume_row, entry_vector, mapRows, hlead]
  show (generate [n, g.paramDim] fun i => ((generate [n] fun k => g.mulRow G (t.coordinate [n] k)).entry
    (i / g.paramDim)).getD (i % g.paramDim) default).entry _ = _
  rw [entry_generate hcell, Shape.cell_div hj, Shape.cell_mod hj, entry_generate (by simpa using hk), hrow]
  rfl

end Tensor

namespace Value

variable {α : Type} [Scalar α]

/-- Elements of groups multiplied from the left. -/
def carried (g : LieGroup) (G : Nat → α) : Value α → Value α
  | .node (.group h) [.leaf b] => .ofGroup h (b.toReals.mapRows g.paramDim (g.mulRow G))
  | v => v

end Value

section Definitions

variable {C α : Type} [DecidableEq C] [Scalar α] (g : LieGroup) (G : Nat → α)

def Stack.carried : Stack C α → Stack C α
  | .values v => .values (v.carried g G)
  | .factors f => .factors f

def Buffer.carried (b : Buffer C α) : Buffer C α := { b with stack := b.stack.map (Stack.carried g G) }

/-- All elements of a group multiplied from the left by one of them. -/
def Store.carried (s : Store C α) : Store C α where
  buffers := s.buffers.map fun key b => if key = .type (.lie g) then b.carried g G else b

end Definitions

namespace Store

variable {C α : Type} [DecidableEq C] [LinearOrder α] [ExactScalar α] {g : LieGroup} {G : Nat → α}
  {s : Store C α}

theorem get?_carried (key : Key C) : (s.carried g G).buffers.get? key =
    (s.buffers.get? key).map fun b => if key = .type (.lie g) then b.carried g G else b :=
  Table.get?_map ..

theorem buffer_carried_of_ne {key : Key C} (h : key ≠ .type (.lie g)) :
    (s.carried g G).buffer key = s.buffer key := by
  show ((s.carried g G).buffers.get? key).getD .empty = _
  simp only [get?_carried, if_neg h, Option.map_id']
  rfl

theorem buffer_carried : (s.carried g G).buffer (.type (.lie g)) =
    (s.buffer (.type (.lie g))).carried g G := by
  show ((s.carried g G).buffers.get? _).getD .empty = ((s.buffers.get? _).getD .empty).carried g G
  simp only [get?_carried, if_true]
  cases s.buffers.get? (.type (.lie g)) <;> rfl

theorem keys_carried : (s.carried g G).buffers.keys = s.buffers.keys := Table.keys_map_eq ..

omit [DecidableEq C] in
/-- A buffer of elements keeps its rows, each of them multiplied. -/
theorem stores_carried {b : Buffer C α} {v : Value α} {n : Nat} (h : b.Stores (.lie g) v n) :
    ∃ t : Tensor α, t.shape = [n, g.paramDim] ∧ v = .ofGroup g t ∧
      (b.carried g G).Stores (.lie g) (.ofGroup g (t.mapRows g.paramDim (g.mulRow G))) n := by
  have hreal : v.IsReal (.node (.group g) [.leaf [n, g.paramDim]]) := h.typed rfl
  obtain ⟨t, rfl, ht⟩ := hreal.group
  have hshape : (t.mapRows g.paramDim (g.mulRow G)).shape = [n, g.paramDim] := by
    rw [Tensor.mapRows, Tensor.lead, ht]
    rfl
  refine ⟨t, ht, rfl, h.content, ?_, ?_, h.positive, fun _ => ?_⟩
  · rw [Buffer.carried, h.stack]
    rfl
  · exact Value.rowCount_eq_ok.2 ⟨by simp [Value.ofGroup, Tree.leaves, Tree.leaves.all], by
      simp [Value.ofGroup, Tree.leaves, Tree.leaves.all, Block.shape, hshape]⟩
  · show Tree.node _ [Tree.leaf (Kind.real, (t.mapRows g.paramDim (g.mulRow G)).shape)] = _
    rw [hshape]
    rfl

theorem WellFormed.carried (hs : s.WellFormed) : (s.carried g G).WellFormed := by
  intro key b hb
  rw [get?_carried] at hb
  obtain ⟨old, hold, rfl⟩ := Option.map_eq_some_iff.1 hb
  obtain ⟨t, v, n, rfl, h⟩ := hs key old hold
  by_cases ht : t = .lie g
  · subst ht
    obtain ⟨u, -, -, hu⟩ := stores_carried (G := G) h
    exact ⟨_, _, n, rfl, by rwa [if_pos rfl]⟩
  · exact ⟨t, v, n, rfl, by rwa [if_neg (by simpa using ht)]⟩

theorem WellFormed.count_carried (hs : s.WellFormed) {key : Key C} {b : Buffer C α}
    (hb : s.buffers.get? key = some b) :
    (if key = .type (.lie g) then b.carried g G else b).count = b.count := by
  obtain ⟨t, v, n, rfl, h⟩ := hs key b hb
  split
  next hkey =>
    obtain rfl : t = .lie g := Key.type.inj hkey
    obtain ⟨u, -, -, hu⟩ := stores_carried (G := G) h
    rw [hu.count, h.count]
  next => rfl

theorem WellFormed.layout_carried (hs : s.WellFormed) : (s.carried g G).layout = s.layout := by
  have hcount : ∀ key, ((s.carried g G).buffer key).count = (s.buffer key).count := by
    intro key
    show (((s.carried g G).buffers.get? key).getD .empty).count = ((s.buffers.get? key).getD .empty).count
    rw [get?_carried]
    cases hb : s.buffers.get? key with
    | none => rfl
    | some b => exact hs.count_carried hb
  simp only [layout, keys_carried, hcount]

theorem WellFormed.tangentZeros_carried [FactorFamily C] (hs : s.WellFormed) :
    (s.carried g G).tangentZeros = s.tangentZeros := by
  obtain ⟨z, hz, hentries⟩ := hs.tangentZeros
  obtain ⟨z', hz', hentries'⟩ := (hs.carried (g := g) (G := G)).tangentZeros
  have hsame : Table.images zerosFor (s.carried g G).buffers.entries =
      Table.images zerosFor s.buffers.entries := by
    show ((s.buffers.entries.map fun e => (e.1, if e.1 = .type (.lie g) then e.2.carried g G else e.2)).filterMap
      fun e => (zerosFor e.1 e.2).map (e.1, ·)) = _
    rw [List.filterMap_map]
    refine List.filterMap_congr fun e he => ?_
    have hcount := hs.count_carried (g := g) (G := G) (Table.get?_eq_some_iff.2 he)
    simp only [Function.comp_apply]
    unfold zerosFor
    rw [hcount]
  obtain rfl : z' = z := by
    obtain ⟨⟨entries, _⟩⟩ := z
    obtain ⟨⟨entries', _⟩⟩ := z'
    obtain rfl : entries' = entries := hentries'.trans (hsame.trans hentries.symm)
    rfl
  rw [hz, hz']

/-! ## Reading -/

/-- What is read as an element is multiplied; whatever else is read is the same. -/
def CarriedAt (g : LieGroup) (G : Nat → α) (T : VariableType) (x y : Found α) : Prop :=
  if T = .lie g then Value.Carried g G x.value y.value else y = x

theorem WellFormed.valuesOf_carried (hs : s.WellFormed) (hT : Key.type (.lie g) ∈ s.layout.keys)
    (G : Nat → α) : ∃ t : Tensor α, t.shape = [s.layout.rows (.type (.lie g)), g.paramDim] ∧
      s.valuesOf (.lie g) = .ofGroup g t ∧
      (s.carried g G).valuesOf (.lie g) = .ofGroup g (t.mapRows g.paramDim (g.mulRow G)) := by
  obtain ⟨t, ht, hvalues, hcarried⟩ := stores_carried (G := G) (hs.stores hT)
  exact ⟨t, ht, hvalues, by rw [valuesOf, buffer_carried, hcarried.stack]⟩

theorem WellFormed.bulk_carried (hs : s.WellFormed) {a : Handle (Block α)} (G : Nat → α)
    (ha : a.type = .lie g → ∃ t, a.index = .ints t ∧ t.shape = []) :
    Checked.Alike (CarriedAt g G a.type) (s.bulk a.inStack) ((s.carried g G).bulk a.inStack) := by
  have hcontains : (s.carried g G).buffers.contains (.type a.type) = s.buffers.contains (.type a.type) := by
    rw [Table.contains, Table.contains, keys_carried]
  by_cases htype : a.type = .lie g
  · obtain ⟨T, index⟩ := a
    obtain rfl : T = .lie g := htype
    obtain ⟨index, rfl, hindex⟩ := ha rfl
    by_cases hkey : Key.type (.lie g) ∈ s.buffers.keys
    · have hT : Key.type (.lie g) ∈ s.layout.keys := List.mem_toFinset.2 hkey
      obtain ⟨t, ht, hvalues, hcarried⟩ := hs.valuesOf_carried hT G
      have hlayout := hs.layout_carried (g := g) (G := G)
      have hplace : Access.clamped.locate (s.layout.rows (.type (.lie g))) (index.entry 0) =
          some (nearestRow (s.layout.rows (.type (.lie g))) (index.entry 0)) := by
        rw [← locate_nearestRow]
        exact Access.locate_of_lt (nearestRow_lt (hs.stores hT).positive _)
      have hplace' : Access.clamped.locate ((s.carried g G).layout.rows (.type (.lie g))) (index.entry 0) =
          some (nearestRow (s.layout.rows (.type (.lie g))) (index.entry 0)) := by
        rw [hlayout]
        exact hplace
      have hlt := nearestRow_lt (hs.stores hT).positive (index.entry 0)
      rw [hs.bulk_of_locate hT hindex hplace, hs.carried.bulk_of_locate (hlayout ▸ hT) hindex hplace',
        hvalues, hcarried]
      refine .ok ?_
      rw [CarriedAt, if_pos rfl]
      exact ⟨t.row _, by rw [Tensor.shape_row, ht]; rfl, rfl,
        congrArg (Value.ofGroup g) (Tensor.row_mapRows_mulRow g G ht hlt)⟩
    · have hnot : s.buffers.contains (.type (.lie g)) = false := by
        rw [Bool.eq_false_iff, ne_eq, Table.contains_iff]
        exact hkey
      rw [bulk_inStack, bulk_inStack, hcontains, hnot]
      exact .error _
  · have hsame : (s.carried g G).bulk a.inStack = s.bulk a.inStack := by
      have hbuffer : (s.carried g G).buffer (.type a.type) = s.buffer (.type a.type) :=
        buffer_carried_of_ne (by simpa using htype)
      rw [bulk_inStack, bulk_inStack, hcontains, taken, taken, hbuffer]
    rw [hsame]
    cases s.bulk a.inStack with
    | error e => exact .error e
    | ok x => exact .ok (by rw [CarriedAt, if_neg htype])

end Store

/-! ## Factors -/

namespace Factor

variable {C α : Type} [DecidableEq C] [FactorFamily C] [LinearOrder α] [ExactScalar α] {g : LieGroup}
  {G : Nat → α} {s : Store C α} {f : FactorStack C α}

/-- The factors relate elements of one group, two each, by a motion that is given or that a label
chooses. -/
def Relative {ι β : Type} (g : LieGroup) (f : Factor C ι β) : Prop :=
  f.kind = .between ∧ f.types = [.lie g, .lie g] ∨
    f.kind = .switchingBetween ∧ f.types = [.lie g, .discrete, .lie g]

section Rules

variable {ι δ : Type} {e : Factor C ι (Block α)} {x x' y y' : Found α}

omit [DecidableEq C] [FactorFamily C] in
theorem betweenError_carried (hG : g.squaredNorm G = Scalar.one) (hx : Value.Carried g G x.value x'.value)
    (hy : Value.Carried g G y.value y'.value) : e.betweenError [x', y'] = e.betweenError [x, y] := by
  obtain ⟨kind, handles, fields⟩ := e
  match fields with
  | [expected, noise] =>
    simp only [betweenError, Value.betweenResidual_carried hG hx hy]
  | [] | [_] | _ :: _ :: _ :: _ => rfl

omit [DecidableEq C] [FactorFamily C] [LinearOrder α] [ExactScalar α] in
/-- The part between the two ends is the same for all values of these. -/
theorem chosenBetween_bind [Scalar α] {start label stop : Handle ι} (hhandles : e.handles = [start, label, stop])
    (l : Found α) {rule : Component C ι α → Checked δ}
    (hrule : ∀ part : Factor C ι (Block α), part.kind = .between → part.handles = [start, stop] →
      rule (part, [x', y']) = rule (part, [x, y])) :
    e.chosenBetween [x', l, y'] >>= rule = e.chosenBetween [x, l, y] >>= rule := by
  obtain ⟨kind, handles, fields⟩ := e
  obtain rfl : handles = [start, label, stop] := hhandles
  match fields with
  | [movements, noise] =>
    simp only [chosenBetween, bind_assoc, Checked.pure_eq_ok, Checked.ok_bind]
    exact bind_congr fun array => bind_congr fun movement => hrule _ rfl rfl
  | [] | [_] | _ :: _ :: _ :: _ => rfl

end Rules

omit [FactorFamily C] in
/-- A rule that sees neither end of a motion multiplied computes the same from both stores. -/
theorem values_bind {δ : Type} (hs : s.WellFormed) (h : f.Relative g)
    (hindex : ∀ a ∈ f.handles, a.type = .lie g → ∃ t, a.index = .ints t ∧ t.shape = [])
    (rule : List (Found α) → Checked δ)
    (hpair : f.kind = .between → ∀ {x x' y y' : Found α}, Value.Carried g G x.value x'.value →
      Value.Carried g G y.value y'.value → rule [x', y'] = rule [x, y])
    (hlabel : ∀ {start label stop}, f.kind = .switchingBetween → f.handles = [start, label, stop] →
      ∀ {x x' y y' : Found α} l, Value.Carried g G x.value x'.value →
        Value.Carried g G y.value y'.value → rule [x', l, y'] = rule [x, l, y]) :
    f.values (s.carried g G).bulk >>= rule = f.values s.bulk >>= rule := by
  have hread : ∀ a ∈ f.handles, Checked.Alike (Store.CarriedAt g G a.type) (s.bulk a.inStack)
      ((s.carried g G).bulk a.inStack) := fun a ha => hs.bulk_carried G (hindex a ha)
  rcases h with ⟨hkind, htypes⟩ | ⟨hkind, htypes⟩
  · obtain ⟨a, b, hhandles⟩ := List.length_eq_two.1 (by simpa [types] using congrArg List.length htypes)
    obtain ⟨ha, hb⟩ : a.type = .lie g ∧ b.type = .lie g := by simpa [types, hhandles] using htypes
    have hcarried : ∀ {x x'}, Store.CarriedAt g G (.lie g) x x' → Value.Carried g G x.value x'.value :=
      fun h => by rwa [Store.CarriedAt, if_pos rfl] at h
    simp only [values, hhandles, List.mapM_cons, List.mapM_nil, bind_assoc, Checked.pure_eq_ok,
      Checked.ok_bind]
    refine (hread a (by simp [hhandles])).bind_eq fun x x' hx => ?_
    refine (hread b (by simp [hhandles])).bind_eq fun y y' hy => ?_
    exact hpair hkind (hcarried (ha ▸ hx)) (hcarried (hb ▸ hy))
  · obtain ⟨a, l, b, hhandles⟩ :=
      List.length_eq_three.1 (by simpa [types] using congrArg List.length htypes)
    obtain ⟨ha, hl, hb⟩ : a.type = .lie g ∧ l.type = .discrete ∧ b.type = .lie g := by
      simpa [types, hhandles] using htypes
    have hcarried : ∀ {x x'}, Store.CarriedAt g G (.lie g) x x' → Value.Carried g G x.value x'.value :=
      fun h => by rwa [Store.CarriedAt, if_pos rfl] at h
    simp only [values, hhandles, List.mapM_cons, List.mapM_nil, bind_assoc, Checked.pure_eq_ok,
      Checked.ok_bind]
    refine (hread a (by simp [hhandles])).bind_eq fun x x' hx => ?_
    refine (hread l (by simp [hhandles])).bind_eq fun label label' hsame => ?_
    refine (hread b (by simp [hhandles])).bind_eq fun y y' hy => ?_
    obtain rfl : label' = label := by
      rwa [hl, Store.CarriedAt, if_neg (by simp)] at hsame
    exact hlabel hkind hhandles label' (hcarried (ha ▸ hx)) (hcarried (hb ▸ hy))

/-- The indices of the elements are listed, one for each factor. -/
def Listed (g : LieGroup) (f : FactorStack C α) : Prop :=
  ∀ a ∈ f.handles, a.type = .lie g → ∃ t n, a.index = .ints t ∧ t.shape = [n]

omit [FactorFamily C] in
/-- What rules that see neither end of a motion multiplied compute over the rows of a stack. -/
theorem overRows_carried {δ : Type} (hs : s.WellFormed) (h : f.Relative g) (hlisted : f.Listed g)
    (rule : FactorStack C α → List (Found α) → Checked δ)
    (hpair : ∀ e : FactorStack C α, e.kind = .between → e.types = [.lie g, .lie g] →
      ∀ {x x' y y' : Found α}, Value.Carried g G x.value x'.value →
        Value.Carried g G y.value y'.value → rule e [x', y'] = rule e [x, y])
    (hlabel : ∀ (e : FactorStack C α) {start label stop}, e.kind = .switchingBetween →
      e.handles = [start, label, stop] → start.type = .lie g → stop.type = .lie g →
      ∀ {x x' y y' : Found α} l, Value.Carried g G x.value x'.value →
        Value.Carried g G y.value y'.value → rule e [x', l, y'] = rule e [x, l, y]) :
    f.overRows (s.carried g G).bulk rule = f.overRows s.bulk rule := by
  unfold overRows rows
  simp only [bind_assoc, Checked.pure_eq_ok, Checked.ok_bind]
  refine bind_congr fun n => Checked.mapM_congr fun e he => ?_
  obtain ⟨i, -, rfl⟩ := List.mem_map.1 he
  have htypes : (f.row i).types = f.types := by simp [types, row, map]
  have hrow : (f.row i).Relative g := by rwa [Relative, htypes]
  have hindex : ∀ a ∈ (f.row i).handles, a.type = .lie g → ∃ t, a.index = .ints t ∧ t.shape = [] := by
    intro a ha htype
    obtain ⟨b, hb, rfl⟩ := List.mem_map.1 ha
    obtain ⟨t, n, ht, hshape⟩ := hlisted b hb htype
    exact ⟨t.row i, by show b.index.row i = _; rw [ht]; rfl, by rw [Tensor.shape_row, hshape]; rfl⟩
  refine values_bind hs hrow hindex _ (fun hkind _ _ _ _ hx hy => ?_)
    fun hkind hhandles _ _ _ _ l hx hy => ?_
  · rcases hrow with ⟨-, htypes⟩ | ⟨hother, -⟩
    · exact hpair _ hkind htypes hx hy
    · rw [hkind] at hother
      cases hother
  · rcases hrow with ⟨hother, -⟩ | ⟨-, htypes⟩
    · rw [hkind] at hother
      cases hother
    · rw [types, hhandles] at htypes
      simp only [List.map_cons, List.map_nil, List.cons.injEq, and_true] at htypes
      exact hlabel _ hkind hhandles htypes.1 htypes.2.2 l hx hy

section Stacks

variable (hG : g.squaredNorm G = Scalar.one) (hs : s.WellFormed) (h : f.Relative g)
  (hlisted : f.Listed g)

include hG hs h hlisted

theorem overRows_residual_carried :
    f.overRows (s.carried g G).bulk residual = f.overRows s.bulk residual := by
  refine overRows_carried hs h hlisted _ (fun e hkind _ _ _ _ _ hx hy => ?_)
    fun e start label stop hkind hhandles _ _ _ _ _ _ l hx hy => ?_
  · obtain ⟨kind, handles, fields⟩ := e
    obtain rfl : kind = .between := hkind
    exact betweenError_carried hG hx hy
  · obtain ⟨kind, handles, fields⟩ := e
    obtain rfl : kind = .switchingBetween := hkind
    exact chosenBetween_bind hhandles l fun part _ _ => betweenError_carried hG hx hy

theorem overRows_error_carried : f.overRows (s.carried g G).bulk error = f.overRows s.bulk error := by
  refine overRows_carried hs h hlisted _ (fun e hkind _ _ _ _ _ hx hy => ?_)
    fun e start label stop hkind hhandles _ _ _ _ _ _ l hx hy => ?_
  · obtain ⟨kind, handles, fields⟩ := e
    obtain rfl : kind = .between := hkind
    exact congrArg (· >>= halfSquaredNorm) (betweenError_carried hG hx hy)
  · obtain ⟨kind, handles, fields⟩ := e
    obtain rfl : kind = .switchingBetween := hkind
    exact congrArg (· >>= halfSquaredNorm)
      (chosenBetween_bind hhandles l fun part _ _ => betweenError_carried hG hx hy)

theorem stackGradient_carried (into : Vectors C α) :
    f.stackGradient (s.carried g G).bulk into = f.stackGradient s.bulk into := by
  refine congrArg (· >>= fun contributions => accumulate contributions into) ?_
  refine overRows_carried hs h hlisted _ (fun e hkind htypes _ _ _ _ hx hy => ?_)
    fun e start label stop hkind hhandles hstart hstop _ _ _ _ l hx hy => ?_
  · have hgradient := errorGradient_carried hG hkind htypes hx hy
    obtain ⟨kind, handles, fields⟩ := e
    obtain rfl : kind = .between := hkind
    simp only [component, bind_assoc, Checked.pure_eq_ok, Checked.ok_bind, hgradient]
  · obtain ⟨kind, handles, fields⟩ := e
    obtain rfl : kind = .switchingBetween := hkind
    refine chosenBetween_bind hhandles l fun part hkind hends => ?_
    have htypes : part.types = [.lie g, .lie g] := by
      simp only [types, hends, List.map_cons, List.map_nil, hstart, hstop]
    simp only [errorGradient_carried hG hkind htypes hx hy]

end Stacks

end Factor

/-- The handle has one whole number as its index. -/
def Handle.Single {α : Type} [Scalar α] (a : Handle (Item α)) : Prop :=
  ∃ t : Tensor Int, a.index.block? = some (.ints t) ∧ t.shape = []

namespace Factor

variable {C α : Type} [DecidableEq C] [Scalar α] {g : LieGroup} {rows : List (FactorStack C α)}
  {F : FactorStack C α}

omit [DecidableEq C] in
theorem Relative.of_frame {ι κ β γ : Type} {e : Factor C ι β} {f : Factor C κ γ} (h : e.Relative g)
    (hframe : f.frame = e.frame) : f.Relative g := by
  have hkind : f.kind = e.kind := congrArg Prod.fst hframe
  have htypes : f.types = e.types := congrArg (fun frame => frame.2.1) hframe
  rwa [Relative, hkind, htypes]

/-- Single indices are stacked as a list. -/
theorem listed_of_stack? (h : stack? rows = some F)
    (hsingle : ∀ f ∈ rows, ∀ a ∈ f.handles, ∃ t : Tensor Int, a.index = .ints t ∧ t.shape = []) :
    F.Listed g := by
  obtain ⟨hne, hframes, -⟩ := stack?_spec h
  have hpos := List.length_pos_of_ne_nil hne
  intro a ha _
  obtain ⟨k, hk, rfl⟩ := List.getElem_of_mem ha
  have hk' : k < (rows[0]).handles.length :=
    (length_handles_eq (hframes _ (List.getElem_mem hpos))).symm ▸ hk
  obtain ⟨t, ht, hscalar⟩ := hsingle _ (List.getElem_mem hpos) _ (List.getElem_mem hk')
  obtain ⟨hkind, hshape, -⟩ := index_stack? h (fun f hf a ha => by
    obtain ⟨t, ht, -⟩ := hsingle f hf a ha
    rw [ht]
    rfl) hpos hk hk'
  obtain ⟨u, hu⟩ : ∃ u : Tensor Int, (F.handles[k]).index = .ints u := by
    cases hindex : (F.handles[k]).index with
    | ints u => exact ⟨u, rfl⟩
    | bools | reals =>
      rw [hindex] at hkind
      cases hkind
  refine ⟨u, rows.length, hu, ?_⟩
  rw [hu, ht, Block.shape, Block.shape, hscalar] at hshape
  exact hshape

end Factor

/-! ## Graphs -/

namespace FactorGraph

variable {C α : Type} [DecidableEq C] [FactorFamily C] [LinearOrder α] [ExactScalar α]
  {graph : FactorGraph C α} {s : Store C α} {g : LieGroup} {G : Nat → α}

/-- All factors relate elements of one group. -/
def Relative (graph : FactorGraph C α) (g : LieGroup) : Prop :=
  ∀ key b f, graph.buffers.get? key = some b → b.factors = .ok f → f.Relative g ∧ f.Listed g

/-- Factors that relate elements of one group, stored one by one. -/
theorem relative_of_ofFactors {fs : List (FactorLiteral C α)} (h : ofFactors fs = .ok graph)
    (hfs : ∀ f ∈ fs, f.Relative g ∧ ∀ a ∈ f.handles, a.Single) : graph.Relative g := by
  intro key b F hb hF
  obtain ⟨f, hf, rfl⟩ := (holds_of_ofFactors h).keys key (Table.mem_keys_iff.2 ⟨b, hb⟩)
  have hmember : f ∈ members (.ofItems f) fs := List.mem_filter.2 ⟨hf, decide_eq_true rfl⟩
  obtain ⟨b', hb', rows, F', hcontent, hstack, hrows, hF'⟩ :=
    (holds_of_ofFactors h).bucket _ (List.ne_nil_of_mem hmember)
  obtain rfl := Option.some.inj (hb'.symm.trans hb)
  obtain rfl : F' = F := by
    rw [Buffer.factors, hcontent, hstack] at hF
    exact Except.ok.inj hF
  obtain ⟨hne, hframes, -⟩ := Factor.stack?_spec hF'
  have hgiven : ∀ e ∈ rows, ∃ f ∈ fs, f.stored? = some e := by
    intro e he
    obtain ⟨i, hi, rfl⟩ := List.getElem_of_mem he
    have hi' := hrows.length_eq ▸ hi
    exact ⟨_, (List.mem_filter.1 (List.getElem_mem hi')).1, hrows.get hi' hi⟩
  constructor
  · obtain ⟨e, he⟩ := List.exists_mem_of_ne_nil _ hne
    obtain ⟨f, hf, hstored⟩ := hgiven e he
    exact (hfs f hf).1.of_frame ((hframes e he).symm.trans (Factor.stored?_spec hstored).1)
  · refine Factor.listed_of_stack? hF' fun e he a ha => ?_
    obtain ⟨f, hf, hstored⟩ := hgiven e he
    have hspec := Factor.handles_of_stored? hstored
    obtain ⟨i, hi, rfl⟩ := List.getElem_of_mem ha
    have hi' := hspec.length_eq ▸ hi
    obtain ⟨t, ht, hshape⟩ := (hfs f hf).2 _ (List.getElem_mem hi')
    exact ⟨t, Option.some.inj ((hspec.get hi' hi).2.symm.trans ht), hshape⟩

section Invariance

variable (h : graph.Relative g) (hs : s.WellFormed) (hG : g.squaredNorm G = Scalar.one)

include h hs hG

theorem Relative.residuals : graph.residuals (s.carried g G).bulk = graph.residuals s.bulk := by
  unfold FactorGraph.residuals Table.filterMapM
  refine congrArg (· >>= _) (Checked.foldlM_congr (fun e he out => ?_) _)
  obtain ⟨key, b⟩ := e
  have hb := Table.get?_eq_some_iff.2 he
  cases hf : b.factors with
  | error _ => simp only [hf, Checked.error_bind]
  | ok f =>
    obtain ⟨hrelative, hlisted⟩ := h key b f hb hf
    simp only [hf, Checked.ok_bind, Factor.stackResiduals,
      Factor.overRows_residual_carried hG hs hrelative hlisted]

theorem Relative.error : graph.error (s.carried g G).bulk = graph.error s.bulk := by
  refine Checked.foldlM_congr (fun e he total => ?_) _
  obtain ⟨key, b⟩ := e
  have hb := Table.get?_eq_some_iff.2 he
  cases hf : b.factors with
  | error _ => simp only [hf, Checked.error_bind]
  | ok f =>
    obtain ⟨hrelative, hlisted⟩ := h key b f hb hf
    simp only [hf, Checked.ok_bind, Factor.stackError, Factor.stackErrors,
      Factor.overRows_error_carried hG hs hrelative hlisted]

theorem Relative.gradient : graph.gradient (s.carried g G) = graph.gradient s := by
  unfold FactorGraph.gradient
  rw [hs.tangentZeros_carried]
  refine bind_congr fun zeros => Checked.foldlM_congr (fun e he out => ?_) zeros
  obtain ⟨key, b⟩ := e
  have hb := Table.get?_eq_some_iff.2 he
  cases hf : b.factors with
  | error _ => simp only [hf, Checked.error_bind]
  | ok f =>
    obtain ⟨hrelative, hlisted⟩ := h key b f hb hf
    simp only [hf, Checked.ok_bind, Factor.stackGradient_carried hG hs hrelative hlisted]

end Invariance

/-- A graph of relative motions gives the same residuals, error and gradient where all elements are
multiplied from the left by one of them whose rotation has norm one. -/
theorem Relative.gauge (h : graph.Relative g) (hs : s.WellFormed) (hG : g.squaredNorm G = 1) :
    graph.residuals (s.carried g G).bulk = graph.residuals s.bulk ∧
      graph.error (s.carried g G).bulk = graph.error s.bulk ∧
      graph.gradient (s.carried g G) = graph.gradient s := by
  have hG : g.squaredNorm G = Scalar.one := hG.trans Scalar.one_eq.symm
  exact ⟨h.residuals hs hG, h.error hs hG, h.gradient hs hG⟩

/-! ## Links between motions of the plane -/

/-- Motions of the plane by their parameters: cosine and sine, and the translation. -/
def planar (cells : Array ℚ) : Literal ℚ :=
  Tree.map (Item.array .device) (Value.ofGroup .se2 (.vector cells))

def linkNoise : Literal ℚ := (Noise.diagonal (.reals (.vector #[1, 2, 1]))).tree (Item.array .device)

/-- One motion is given, the other chosen by a label from two. -/
def links : List (FactorLiteral Catalogue ℚ) :=
  [⟨.between, [⟨.lie .se2, .int 0⟩, ⟨.lie .se2, .int 1⟩], [planar #[1, 0, 2, 0], linkNoise]⟩,
    ⟨.switchingBetween, [⟨.lie .se2, .int 1⟩, ⟨.discrete, .int 0⟩, ⟨.lie .se2, .int 0⟩],
      [Tree.map (Item.array .device)
        (Value.ofGroup .se2 ⟨[2, 4], #[1, 0, 0, 0, 1, 0, -2, 0], rfl⟩), linkNoise]⟩]

def linkedStore : Store Catalogue ℚ where
  buffers := .ofList
    [(.type (.lie .se2), .of (.values (.ofGroup .se2 ⟨[2, 4], #[1, 0, 0, 0, 1, 0, 3, 1], rfl⟩))
      (.values (.lie .se2))),
    (.type .discrete, .of (.values (.leaf (.ints ⟨[1], #[1], rfl⟩))) (.values .discrete))]

/-- A motion of the plane that turns it, with the cosine 3/5. -/
def turning : Nat → ℚ := (Tensor.vector #[3 / 5, 4 / 5, 7, -2]).entry

theorem linkedStore_wellFormed : linkedStore.WellFormed := by
  intro key b hb
  have hmem : (key, b) ∈ [(Key.type (.lie .se2), _), (Key.type .discrete, _)] :=
    Table.get?_eq_some_iff.1 hb
  rcases List.mem_pair.1 hmem with h | h <;> cases h
  · exact ⟨.lie .se2, _, 2, rfl, rfl, rfl, rfl, by omega, fun _ => rfl⟩
  · exact ⟨.discrete, _, 1, rfl, rfl, rfl, rfl, Nat.one_pos, nofun⟩

theorem links_gauge : ∃ graph, ofFactors links = .ok graph ∧
    graph.residuals (linkedStore.carried .se2 turning).bulk = graph.residuals linkedStore.bulk ∧
    graph.error (linkedStore.carried .se2 turning).bulk = graph.error linkedStore.bulk ∧
    graph.gradient (linkedStore.carried .se2 turning) = graph.gradient linkedStore := by
  obtain ⟨graph, hgraph⟩ : ∃ graph, ofFactors links = .ok graph := ⟨_, rfl⟩
  refine ⟨graph, hgraph, Relative.gauge (relative_of_ofFactors hgraph fun f hf => ?_)
    linkedStore_wellFormed (by decide +kernel)⟩
  have hsingle : ∀ (T : VariableType) {i : Int}, 0 ≤ i → i ≤ 1 → Handle.Single (⟨T, .int i⟩ : Handle (Item ℚ)) :=
    fun T i hi hle => ⟨.scalar i, by interval_cases i <;> rfl, rfl⟩
  rcases List.mem_pair.1 hf with rfl | rfl
  · refine ⟨.inl ⟨rfl, rfl⟩, ?_⟩
    simp [hsingle]
  · refine ⟨.inr ⟨rfl, rfl⟩, ?_⟩
    simp [hsingle]

end FactorGraph

end LeastSquares
