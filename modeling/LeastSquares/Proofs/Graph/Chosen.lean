import LeastSquares.Proofs.Factor.RealForm
import LeastSquares.Proofs.Graph.Stored

/-!
# Labels that have chosen

Where the labels of a store lie among the motions of a factor, the factor can be settled: it becomes a
factor of the motion that its label chooses, between its two ends. The factor as it is stored, among others
of its group, stands for the settled one in reals.
-/

namespace LeastSquares

/-! ## Indexing -/

section Rows

variable {α : Type} [Scalar α]

/-- A row of a leaf that is an array. -/
def Item.row (i : Nat) : Item α → Item α
  | .array place b => .array place (b.row i)
  | item => item

/-- Every leaf is an array with so many rows. -/
def Literal.HasRows (x : Literal α) (n : Nat) : Prop :=
  ∀ i ∈ x.leaves, ∃ place b, i = .array place b ∧ b.shape.head? = some n

theorem Literal.indexed_of_hasRows {x : Literal α} {n i : Nat} (h : x.HasRows n) (hi : i < n) :
    x.indexed i = .ok (x.map (Item.row i)) := by
  refine Tree.traverse_eq_map x fun item hitem => ?_
  obtain ⟨place, b, rfl, hb⟩ := h item hitem
  obtain ⟨s, hs⟩ : ∃ s, b.shape = n :: s := List.head?_eq_some_iff.1 hb
  have htake : b.take? place.access (.int i) = some (b.row i) :=
    Block.take?_row hs rfl (Access.locate_of_lt hi)
  simp only [htake, fitting_some, Checked.ok_bind]
  rfl

omit [Scalar α] in
/-- A literal of arrays, as it is stored. -/
theorem Literal.leaves_of_hasRows {x : Literal α} {n : Nat} (h : x.HasRows n) {v : Value α}
    (hv : x.value? = some v) : ∀ b ∈ v.leaves, ∃ s, b.shape = n :: s := by
  obtain ⟨-, hleaves⟩ := Tree.traverse_spec x hv
  intro b hb
  obtain ⟨k, hk, rfl⟩ := List.getElem_of_mem hb
  have hk' : k < x.leaves.length := hleaves.length_eq ▸ hk
  obtain ⟨place, c, hc, hhead⟩ := h _ (List.getElem_mem hk')
  have hget := hleaves.get hk' hk
  simp only [List.get_eq_getElem, hc] at hget
  rw [← Option.some.inj hget]
  exact List.head?_eq_some_iff.1 hhead

theorem Literal.value?_row {x : Literal α} {n : Nat} (h : x.HasRows n) {v : Value α}
    (hv : x.value? = some v) (i : Nat) : value? (x.map (Item.row i)) = some (v.row i) := by
  obtain ⟨hskeleton, hleaves⟩ := Tree.traverse_spec x hv
  obtain ⟨u, hu⟩ := Tree.traverse_ok (f := Item.block?) (x.map (Item.row i)) fun item hitem => by
    rw [Tree.leaves_map] at hitem
    obtain ⟨leaf, hleaf, rfl⟩ := List.mem_map.1 hitem
    obtain ⟨place, b, rfl, -⟩ := h leaf hleaf
    exact ⟨_, rfl⟩
  obtain ⟨huskeleton, huleaves⟩ := Tree.traverse_spec _ hu
  refine hu.trans (congrArg some (Tree.eq_of_leaves _ _ ?_ ?_))
  · rw [huskeleton, Value.row, Tree.skeleton_map, Tree.skeleton_map, hskeleton]
  · rw [Tree.leaves_map, List.forall₂_map_left_iff] at huleaves
    rw [Value.row, Tree.leaves_map]
    refine List.ext_getElem (by simp [← huleaves.length_eq, hleaves.length_eq]) fun k hk hk' => ?_
    have hkx : k < x.leaves.length := huleaves.length_eq ▸ hk
    have hkv : k < v.leaves.length := hleaves.length_eq ▸ hkx
    obtain ⟨place, b, hb, -⟩ := h _ (List.getElem_mem hkx)
    have hget := huleaves.get hkx hk
    have hget' := hleaves.get hkx hkv
    simp only [List.get_eq_getElem, hb] at hget hget'
    rw [List.getElem_map, ← Option.some.inj hget, ← Option.some.inj hget']

/-- Rows are taken before or after whole numbers become scalars. -/
theorem Value.map_cast_row {v : Value α} {n i : Nat} (hv : ∀ b ∈ v.leaves, ∃ s, b.shape = n :: s)
    (hi : i < n) (k : Kind) :
    (Value.row v i).map (Block.cast k) = Value.row (v.map (Block.cast k)) i := by
  rw [Value.row, Value.row, Tree.map_map, Tree.map_map]
  refine Tree.map_eq_map_iff.2 ⟨rfl, List.map_congr_left fun b hb => ?_⟩
  obtain ⟨s, hs⟩ := hv b hb
  exact (Block.row_cast hs k hi).symm

/-- Leaves of one shape, told by their real forms. -/
theorem Value.leaves_of_cast {v w : Value α} (h : v.map (Block.cast .real) = w.map (Block.cast .real))
    {n : Nat} (hw : ∀ b ∈ w.leaves, ∃ s, b.shape = n :: s) : ∀ b ∈ v.leaves, ∃ s, b.shape = n :: s := by
  have hleaves := congrArg Tree.leaves h
  rw [Tree.leaves_map, Tree.leaves_map] at hleaves
  intro b hb
  have hmem : b.cast .real ∈ w.leaves.map (Block.cast .real) :=
    hleaves ▸ List.mem_map_of_mem hb
  obtain ⟨c, hc, hsame⟩ := List.mem_map.1 hmem
  obtain ⟨s, hs⟩ := hw c hc
  exact ⟨s, by rw [← Block.shape_cast b .real, ← hsame, Block.shape_cast, hs]⟩

end Rows

/-! ## Reading a label -/

theorem Residence.places_eq_fitting {α : Type} [Scalar α] (place : Residence) (i : Item α) :
    ∃ o, place.places i = fitting o := by
  cases i with
  | array residence b =>
    cases place <;> cases residence <;>
      first | exact ⟨some b, rfl⟩ | exact ⟨none, rfl⟩
  | int i => cases place <;> exact ⟨(Item.int i).block?, rfl⟩
  | _ => cases place <;> exact ⟨none, rfl⟩

namespace Store

variable {C α : Type} [DecidableEq C] [Scalar α] {s : Store C α}

/-- The number that is stored at a handle of a label. -/
def label (s : Store C α) (a : Handle (Item α)) : Checked Int := do
  match (← s.read a).value with
  | .leaf (.ints t) => if t.shape = [] then return t.entry 0 else misfit
  | _ => misfit

theorem label_eq_ok {a : Handle (Item α)} {c : Int} (h : s.label a = .ok c) :
    ∃ x t, s.read a = .ok x ∧ x.value = .leaf (.ints t) ∧ t.shape = [] ∧ t.entry 0 = c := by
  obtain ⟨x, hx, h⟩ := Checked.bind_eq_ok h
  split at h
  next t ht =>
    split at h
    next hshape => exact ⟨x, t, hx, ht, hshape, Except.ok.inj h⟩
    next => cases h
  next => cases h

end Store

namespace Store

section Reading

variable {C α : Type} [DecidableEq C] [Scalar α] {s : Store C α}

/-- What is read is taken from an array of values, leaf by leaf, at the place that the index names. -/
theorem read_eq_ok {a : Handle (Item α)} {x : Found α} (h : s.read a = .ok x) : ∃ v o,
    s.buffers.contains (.type a.type) = true ∧
    (s.buffer (.type a.type)).stack = some (.values v) ∧
    (s.buffer (.type a.type)).place.places a.index = fitting o ∧
    v.traverse (fun b => o.bind fun index => b.take? (s.buffer (.type a.type)).place.access index) =
      some x.value := by
  obtain ⟨b, hb, h⟩ := Checked.bind_eq_ok h
  obtain ⟨stack, hstack, h⟩ := Checked.bind_eq_ok h
  obtain ⟨hcontains, rfl⟩ : s.buffers.contains (.type a.type) = true ∧ s.buffer (.type a.type) = b := by
    unfold checkedBuffer at hb
    obtain ⟨_, hstored, hb⟩ := Checked.bind_eq_ok hb
    have hcontains : s.buffers.contains (.type a.type) = true := by
      cases hc : s.buffers.contains (.type a.type) with
      | true => rfl
      | false =>
        rw [hc] at hstored
        cases hstored
    refine ⟨hcontains, ?_⟩
    dsimp only at hb
    split at hb
    · obtain ⟨_, -, hb⟩ := Checked.bind_eq_ok hb
      obtain ⟨_, -, hb⟩ := Checked.bind_eq_ok hb
      exact Except.ok.inj hb
    · exact Except.ok.inj hb
  obtain ⟨o, ho⟩ := Residence.places_eq_fitting (s.buffer (.type a.type)).place a.index
  have hfitting : (fun b : Block α => (s.buffer (.type a.type)).place.places a.index >>= fun index =>
      fitting (b.take? (s.buffer (.type a.type)).place.access index)) =
        fun b => fitting (o.bind fun index => b.take? (s.buffer (.type a.type)).place.access index) := by
    funext b
    rw [ho]
    cases o <;> rfl
  unfold Buffer.get at hstack
  split at hstack
  next => cases hstack
  next stored hstored =>
    cases stored with
    | values v =>
      obtain ⟨w, hw, hstack⟩ := Checked.bind_eq_ok hstack
      cases hstack
      cases h
      rw [hfitting, Tree.traverse_fitting] at hw
      exact ⟨v, o, hcontains, hstored, ho, fitting_eq_ok hw⟩
    | factors f =>
      obtain ⟨g, -, hstack⟩ := Checked.bind_eq_ok hstack
      cases hstack
      cases h

end Reading

variable {C α : Type} [DecidableEq C] [LinearOrder α] [ExactScalar α] {s : Store C α}

/-- What is read at a handle in range is a row of the values of its type. -/
theorem WellFormed.value_of_read (hs : s.WellFormed) {a : Handle (Item α)} {k : Nat}
    (hkey : Key.type a.type ∈ s.layout.keys) (hk : a.place? = some k)
    (hlt : k < s.layout.rows (.type a.type)) {x : Found α} (h : s.read a = .ok x) :
    x.value = (s.valuesOf a.type).row k := by
  have hstores := hs.stores hkey
  obtain ⟨v, o, -, hstack, ho, hv⟩ := read_eq_ok h
  obtain rfl : s.valuesOf a.type = v := by
    cases hstores.stack.symm.trans hstack
    rfl
  cases o with
  | none =>
    -- nothing can be read, but there are arrays
    obtain ⟨-, hleaves⟩ := Tree.traverse_spec _ hv
    cases hempty : (s.valuesOf a.type).leaves with
    | nil =>
      have hcount := hstores.rowCount
      rw [Value.rowCount, hempty] at hcount
      cases hcount
    | cons b rest =>
      rw [hempty] at hleaves
      obtain ⟨_, _, hb, -⟩ := List.forall₂_cons_left_iff.1 hleaves
      cases hb
  | some index =>
    obtain ⟨t, rfl, hshape, hentry⟩ := Item.places_of_place? ho hk
    have hplace : (s.buffer (.type a.type)).place.access.locate (s.layout.rows (.type a.type))
        (t.entry 0) = some k := by
      rw [hentry]
      exact Access.locate_of_lt hlt
    have htake := take_row hstores.shape_cons hshape hplace
    rw [Tree.traverse_fitting] at htake
    exact (Option.some.inj ((fitting_eq_ok htake).symm.trans hv)).symm

/-- What is read at a handle in range, a factor of a stack finds there too. -/
theorem WellFormed.bulk_of_read [FactorFamily C] (hs : s.WellFormed) {a : Handle (Item α)}
    (ha : a.InRange s.layout) {b : Handle (Block α)}
    (hb : b.type = a.type ∧ a.index.block? = some b.index) {x : Found α} (h : s.read a = .ok x) :
    s.bulk b.inStack = .ok ⟨x.value, .clamped⟩ := by
  obtain ⟨type, index⟩ := b
  obtain ⟨rfl, hindex⟩ := hb
  obtain ⟨hkey, k, hk, hlt⟩ := ha
  obtain ⟨t, rfl, hshape, hentry⟩ := Item.block?_of_place? hk hindex
  have hplace : Access.clamped.locate (s.layout.rows (.type a.type)) (t.entry 0) = some k := by
    rw [hentry]
    exact Access.locate_of_lt hlt
  rw [hs.bulk_of_locate hkey hshape hplace, hs.value_of_read hkey hk hlt h]

end Store

/-! ## Settled factors -/

namespace Factor

section Settled

variable {C α : Type} [DecidableEq C] [Scalar α] {s : Store C α} {f : FactorLiteral C α}

/-- The factor of the motion that the label chooses, if the factor has a label. -/
def settled (s : Store C α) (f : FactorLiteral C α) : Checked (FactorLiteral C α) :=
  if f.kind = .switchingBetween then
    match f.handles, f.fields with
    | [start, label, stop], [movements, noise] => do
      let movement ← Literal.indexed movements (← s.label label)
      return ⟨.between, [start, stop], [movement, noise]⟩
    | _, _ => misfit
  else return f

theorem settled_of_ne (h : f.kind ≠ .switchingBetween) : f.settled s = .ok f := by
  rw [settled, if_neg h]
  rfl

/-- The label of a factor lies among its motions, which are arrays of so many rows, and the variables at
the ends have tangent spaces. -/
def Labelled (s : Store C α) (f : FactorLiteral C α) : Prop :=
  ∃ start label stop movements noise n c,
    f = ⟨.switchingBetween, [start, label, stop], [movements, noise]⟩ ∧
    start.type.isDifferentiable = true ∧ stop.type.isDifferentiable = true ∧
    Literal.HasRows movements n ∧ s.label label = .ok c ∧ 0 ≤ c ∧ c < n

omit [DecidableEq C] [Scalar α] in
theorem stored?_switching {start label stop : Handle (Item α)} {movements noise : Literal α}
    {g : FactorStack C α}
    (h : stored? ⟨.switchingBetween, [start, label, stop], [movements, noise]⟩ = some g) :
    ∃ a l b M N, g = ⟨.switchingBetween, [a, l, b], [M, N]⟩ ∧
      (a.type = start.type ∧ start.index.block? = some a.index) ∧
      (l.type = label.type ∧ label.index.block? = some l.index) ∧
      (b.type = stop.type ∧ stop.index.block? = some b.index) ∧
      movements.value? = some M ∧ noise.value? = some N := by
  have hhandles := handles_of_stored? h
  obtain ⟨handles, -, h⟩ := Option.bind_eq_some_iff.1 h
  obtain ⟨fields, hfields, h⟩ := Option.bind_eq_some_iff.1 h
  cases h
  replace hhandles : List.Forall₂ (fun a b => b.type = a.type ∧ a.index.block? = some b.index)
    [start, label, stop] handles := hhandles
  obtain - | ⟨ha, - | ⟨hl, - | ⟨hb, - | -⟩⟩⟩ := hhandles
  obtain - | ⟨hM, - | ⟨hN, - | -⟩⟩ := forall₂_of_mapM hfields
  exact ⟨_, _, _, _, _, rfl, ha, hl, hb, hM, hN⟩

omit [DecidableEq C] [Scalar α] in
theorem stored?_between {start stop : Handle (Item α)} {movement noise : Literal α}
    {a b : Handle (Block α)} {M N : Value α} (ha : a.type = start.type ∧ start.index.block? = some a.index)
    (hb : b.type = stop.type ∧ stop.index.block? = some b.index) (hM : movement.value? = some M)
    (hN : noise.value? = some N) :
    stored? (⟨.between, [start, stop], [movement, noise]⟩ : FactorLiteral C α) =
      some ⟨.between, [a, b], [M, N]⟩ := by
  obtain ⟨a, index⟩ := a
  obtain ⟨b, index'⟩ := b
  obtain ⟨rfl, ha⟩ := ha
  obtain ⟨rfl, hb⟩ := hb
  replace hM : movement.traverse Item.block? = some M := hM
  replace hN : noise.traverse Item.block? = some N := hN
  simp [stored?, traverse, ha, hb, hM, hN]

end Settled

/-- The shape of the weighed residual, told by the noise model. -/
def weighedShape {C ι α : Type} (r : Factor C ι (Block α)) : Option Shape :=
  match r.fields with
  | [_, noise] => Noise.weighedShape (noise.map Block.shape)
  | _ => none

theorem weighedShape_mapFields {C ι α β : Type} (r : Factor C ι (Block α)) {g : Block α → Block β}
    (hg : ∀ b, (g b).shape = b.shape) : (r.mapFields g).weighedShape = r.weighedShape := by
  obtain ⟨kind, handles, fields⟩ := r
  match fields with
  | [] | [_] | _ :: _ :: _ :: _ => rfl
  | [_, noise] =>
    show Noise.weighedShape ((noise.map g).map Block.shape) = _
    rw [Tree.map_map]
    exact congrArg (fun f => Noise.weighedShape (noise.map f)) (funext hg)

section Standing

variable {C α : Type} [DecidableEq C] [FactorFamily C] [LinearOrder α] [ExactScalar α]
  {s : Store C α} {f : FactorLiteral C α} {g r p : FactorStack C α}

omit [FactorFamily C] in
/-- The settled factor as it is stored, in reals. -/
def settledReals (s : Store C α) (f : FactorLiteral C α) : Checked (FactorStack C α) := do
  return (← fitting (← f.settled s).stored?).inReals

omit [DecidableEq C] [FactorFamily C] [LinearOrder α] [ExactScalar α] in
/-- The types of the variables between which a motion is measured. -/
def endTypes (r : FactorStack C α) : List VariableType :=
  match r.kind, r.types with
  | .switchingBetween, [start, _, stop] => [start, stop]
  | _, types => types

/-- A factor of a relative motion, as it is stored among others, stands for the settled one. -/
structure Settles (s : Store C α) (f : FactorLiteral C α) (r p : FactorStack C α) : Prop where
  settled : f.settledReals s = .ok p
  kind : p.kind = .between
  connected : p.handles ≠ []
  points : ∀ a ∈ p.handles, a.Points s.layout
  stands : Stands s.bulk r p
  types : p.types = r.endTypes
  weighed : p.weighedShape = r.weighedShape

omit [DecidableEq C] [FactorFamily C] in
theorem weighedShape_inReals (r : FactorStack C α) : r.inReals.weighedShape = r.weighedShape :=
  weighedShape_mapFields r fun b => Block.shape_cast b .real

omit [DecidableEq C] in
/-- What a factor of a relative motion becomes has as many rows as its noise model says. -/
theorem linearizing_between (hkind : p.kind = .between) {values : List (Found α)}
    (h : p.linearizing values = .ok g) : ∃ m blocks error, g = ofJacobian p.handles blocks error ∧
      List.Forall₂ (fun a B => B.shape = [m, a.type.tangentDim]) p.handles blocks ∧
      error.shape = [m] ∧ p.weighedShape = some [m] := by
  obtain ⟨moving, hmoving, hrest⟩ := Checked.bind_eq_ok h
  obtain ⟨R, hR, hrest⟩ := Checked.bind_eq_ok hrest
  obtain ⟨m, hm⟩ : ∃ m, R.shape = [m] := by
    split at hrest
    next m hm => exact ⟨m, hm⟩
    next => cases hrest
  obtain rfl := Except.ok.inj (h.symm.trans (linearizing_eq hmoving hR hm))
  refine ⟨m, _, _, rfl, ?_, rfl, ?_⟩
  · rw [List.forall₂_map_right_iff]
    exact p.forall₂_inputs.imp fun a q hq => by rw [← hq]; rfl
  · have hbetween : p.still.betweenError moving = .ok R := by
      obtain ⟨kind, handles, fields⟩ := p
      obtain rfl : kind = .between := hkind
      exact hR
    obtain ⟨expected, noise, hfields, hshape⟩ := weighedShape_of_betweenError hbetween
    have hstill : p.still.weighedShape = some R.shape := by
      rw [weighedShape, hfields]
      exact hshape
    rw [← hm, ← hstill]
    exact (weighedShape_mapFields p fun b => Block.shape_mapReals ..).symm

/-- A factor of a given motion is settled. -/
theorem settles_between (hkind : f.kind = .between) (hne : f.handles ≠ []) (hrange : ∀ a ∈ f.handles, a.InRange s.layout)
    (hg : f.stored? = some g) (hr : g.Widens r) : Settles s f r g.inReals := by
  have hframe := (stored?_spec hg).1
  have hgkind : g.kind = .between := (congrArg (·.1) hframe).trans hkind
  have hrkind : r.kind = .between := (congrArg (·.1) hr.frame).trans hgkind
  refine ⟨?_, hgkind, ?_, fun a ha => ?_, ?_, ?_, ?_⟩
  · rw [settledReals, settled_of_ne (by rw [hkind]; simp), Checked.ok_bind, hg]
    rfl
  · rw [inReals, handles_mapFields, ← List.length_pos_iff, ← (handles_of_stored? hg).length_eq]
    exact List.length_pos_iff.2 hne
  · rw [inReals, handles_mapFields] at ha
    exact points_of_stored? hg hrange a ha
  · rw [← hr.inReals_eq]
    exact stands_inReals hrkind s.bulk
  · rw [← hr.inReals_eq, types_inReals, endTypes, hrkind]
  · rw [← hr.inReals_eq, weighedShape_inReals]

/-- A factor whose label lies in range is settled. -/
theorem Labelled.settles (hs : s.WellFormed) (hf : f.Labelled s)
    (hrange : ∀ a ∈ f.handles, a.InRange s.layout) (hg : f.stored? = some g) (hr : g.Widens r) :
    ∃ p, Settles s f r p := by
  obtain ⟨start, label, stop, movements, noise, n, c, rfl, hstart, hstop, hrows, hlabel, hc, hn⟩ := hf
  obtain ⟨i, rfl⟩ := Int.eq_ofNat_of_zero_le hc
  have hi : i < n := by omega
  have hpoints := points_of_stored? hg hrange
  obtain ⟨a, l, b, M, N, rfl, ha, hl, hb, hM, hN⟩ := stored?_switching hg
  have hreals := hr.inReals_eq
  obtain ⟨kind, handles, fields⟩ := r
  obtain rfl : kind = .switchingBetween := congrArg (·.1) hr.frame
  obtain rfl : handles = [a, l, b] := hr.handles
  have hfields : fields.map (Tree.map (Block.cast .real)) =
      [M.map (Block.cast .real), N.map (Block.cast .real)] := congrArg (·.fields) hreals
  obtain ⟨M', N', rfl⟩ : ∃ M' N', fields = [M', N'] :=
    List.length_eq_two.1 (by simpa using congrArg List.length hfields)
  obtain ⟨hMreals, hNreals⟩ : M'.map (Block.cast .real) = M.map (Block.cast .real) ∧
      N'.map (Block.cast .real) = N.map (Block.cast .real) := by simpa using hfields
  have hMleaves := Literal.leaves_of_hasRows hrows hM
  have hMleaves' := Value.leaves_of_cast hMreals hMleaves
  have hmovement : (Value.row M' i).map (Block.cast .real) = (Value.row M i).map (Block.cast .real) := by
    rw [Value.map_cast_row hMleaves' hi, Value.map_cast_row hMleaves hi, hMreals]
  -- the label is read among the factors of the group as it is read alone
  obtain ⟨x, t, hx, hxt, htshape, htentry⟩ := Store.label_eq_ok hlabel
  have hreadL := hs.bulk_of_read (hrange label (by simp)) hl hx
  obtain ⟨placeA, -, hreadA⟩ := read_of_points hs (hpoints a (by simp))
  obtain ⟨placeB, -, hreadB⟩ := read_of_points hs (hpoints b (by simp))
  have htake : Value.take .clamped M' (.ints t) = .ok (Value.row M' i) := by
    have hplace : Access.clamped.locate n (t.entry 0) = some i := by
      rw [htentry]
      exact Access.locate_of_lt hi
    rw [Value.take, ← Tree.traverse_fitting]
    exact Store.take_row hMleaves' htshape hplace
  have hstands : Stands s.bulk ⟨.switchingBetween, [a, l, b], [M', N']⟩
      (⟨.between, [a, b], [Value.row M' i, N']⟩ : FactorStack C α) :=
    stands_chosen rfl hreadA hreadL hreadB (by rw [Found.array, hxt]; rfl) htake (ha.1 ▸ hstart)
      (hb.1 ▸ hstop)
  have hsame : (⟨.between, [a, b], [Value.row M' i, N']⟩ : FactorStack C α).inReals =
      inReals ⟨.between, [a, b], [Value.row M i, N]⟩ := by
    have hreal : ∀ v w : Value α, (⟨.between, [a, b], [v, w]⟩ : FactorStack C α).inReals =
        ⟨.between, [a, b], [v.map (Block.cast .real), w.map (Block.cast .real)]⟩ := fun _ _ => rfl
    rw [hreal, hreal, hmovement, hNreals]
  have hsettled : settled s ⟨.switchingBetween, [start, label, stop], [movements, noise]⟩ =
      .ok (⟨.between, [start, stop], [movements.map (Item.row i), noise]⟩ : FactorLiteral C α) := by
    have hindexed : Literal.indexed movements (i : Int) = .ok (movements.map (Item.row i)) :=
      Literal.indexed_of_hasRows hrows hi
    show (s.label label >>= fun c => Literal.indexed movements c >>= fun movement =>
      Except.ok (⟨.between, [start, stop], [movement, noise]⟩ : FactorLiteral C α)) = _
    rw [hlabel, Checked.ok_bind]
    exact hindexed ▸ rfl
  refine ⟨inReals ⟨.between, [a, b], [Value.row M i, N]⟩, ?_, rfl, by simp [inReals], fun e he => ?_, ?_,
    ?_, ?_⟩
  · rw [settledReals, hsettled, Checked.ok_bind,
      stored?_between ha hb (Literal.value?_row hrows hM i) hN]
    rfl
  · have hmem : e ∈ [a, b] := he
    exact hpoints e (by simp at hmem ⊢; tauto)
  · exact hsame ▸ hstands.trans (stands_inReals rfl s.bulk)
  · rfl
  · rw [← hsame, weighedShape_inReals]
    rfl

end Standing

end Factor

end LeastSquares
