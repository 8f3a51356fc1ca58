import LeastSquares.Proofs.Graph.Switched

/-!
# Linear graphs of settled factors

A graph with labels becomes the linear graph of its settled factors: it does so if they do, and factor by factor
it has the same linear factors then, in other groups and other rows. So both linear graphs map a vector to
the same, row by row.
-/

namespace LeastSquares

open Checked (amount Matches)

section Rows

variable {C α : Type} [DecidableEq C] [Scalar α]

/-- One of the linear factors of a group. -/
def LinearGraph.rowOf (g : LinearGraph C α) (k : GroupKey C) (i : Nat) : Checked (FactorStack C α) := do
  return (← (← fitting (g.buffers.get? (.group k))).factors).row i

/-- The linear factor that factor `j` of a list has become. -/
def LinearGraph.factorAt (g : LinearGraph C α) (fs : List (FactorLiteral C α)) (j : Nat) :
    Checked (FactorStack C α) := do
  let f ← fitting fs[j]?
  g.rowOf (.ofItems f) (FactorGraph.place (.ofItems f) fs j)

/-- The vector of one of the factors of a group. -/
def Vectors.rowOf (v : Vectors C α) (k : GroupKey C) (i : Nat) : Checked (Block α) := do
  return (← (v.buffer (.group k)).rows).row i

/-- The vector of factor `j` of a list. -/
def Vectors.rowAt (v : Vectors C α) (fs : List (FactorLiteral C α)) (j : Nat) : Checked (Block α) := do
  let f ← fitting fs[j]?
  v.rowOf (.ofItems f) (FactorGraph.place (.ofItems f) fs j)

namespace FactorGraph

variable {fs : List (FactorLiteral C α)}

/-- A factor of a list is found at its place in its group. -/
theorem members_place {j : Nat} (hj : j < fs.length) :
    ∃ hi : place (.ofItems fs[j]) fs j < (members (.ofItems fs[j]) fs).length,
      (members (.ofItems fs[j]) fs)[place (.ofItems fs[j]) fs j] = fs[j] := by
  have hlist : fs = fs.take j ++ fs[j] :: fs.drop (j + 1) := by simp
  have hsplit : ∀ k, GroupKey.ofItems fs[j] = k →
      members k fs = members k (fs.take j) ++ fs[j] :: members k (fs.drop (j + 1)) := fun k hk =>
    (congrArg (members k) hlist).trans (by
      rw [members, List.filter_append, List.filter_cons, if_pos (by simpa using hk)]
      rfl)
  have hget : (members (.ofItems fs[j]) fs)[place (.ofItems fs[j]) fs j]? = some fs[j] := by
    rw [hsplit _ rfl, place, List.getElem?_append_right le_rfl, Nat.sub_self]
    rfl
  exact List.getElem?_eq_some_iff.1 hget

/-- Vectors of two lists that agree factor by factor: they are the same in groups of relative motions, row
by row, and in all other groups. -/
structure SameRows (fs fs' : List (FactorLiteral C α)) (v w : Vectors C α) : Prop where
  rows : ∀ j, v.rowAt fs j = w.rowAt fs' j
  others : ∀ key, ¬ Among GroupKey.Moves key → v.buffer key = w.buffer key

end FactorGraph

end Rows

/-! ## One linear stack -/

namespace Factor

variable {C α : Type} [DecidableEq C] [FactorFamily C] [LinearOrder α] [ExactScalar α]

/-- The image of a vector under a linear stack, row by row. -/
theorem Linear.forward_rows {L : Layout C} {n m : Nat} {G : FactorStack C α}
    (h : G.Linear L n m) (hn : 0 < n) (hL : L.Tangent) {x : Vectors C α} (hx : x.Fits L) :
    ∃ t : Tensor α, G.stackForward x.bulk = .ok (.reals t) ∧ ∀ i, i < n →
      ((G.row i).values x.bulk >>= (G.row i).forward) = .ok ((Block.reals t).row i) := by
  obtain ⟨t, ht, hshape, hentry⟩ := h.stackForward hn hL hx
  refine ⟨t, ht, fun i hi => ?_⟩
  obtain ⟨vs, b, hvs, hb, u, rfl, hushape, huentry⟩ := h.forward_row hL hx hi
  rw [hvs, Checked.ok_bind, hb]
  have hrow : (t.row i).shape = [m] := by
    rw [Tensor.shape_row, hshape]
    rfl
  refine congrArg Except.ok (congrArg Block.reals (Tensor.ext_entry (hushape.trans hrow.symm) fun j hj => ?_))
  rw [hushape] at hj
  have hjm : j < m := by simpa using hj
  rw [huentry j hj, Tensor.entry_row hshape i (by simpa using hjm), Shape.volume_row, hentry i hi j hjm]

end Factor

/-! ## One linear graph -/

namespace FactorGraph

variable {C α : Type} [DecidableEq C] [FactorFamily C] [LinearOrder α] [ExactScalar α] {s : Store C α}
  {fs fs' : List (FactorLiteral C α)} {f : FactorLiteral C α} {graph graph' : FactorGraph C α}
  {A B : LinearGraph C α} {k : GroupKey C} {b : Buffer C α}

/-- What a buffer of a graph becomes. -/
def linearStep (read : Reader α) (b : Buffer C α) : Checked (Option (Buffer C α)) := do
  if b.hasResiduals then
    let linear ← (← b.factors).stackLinearized read
    return some (Buffer.of (.factors linear) (.factors linear.kind))
  else return none

/-- The linear graph has the linear factors of the settled factors of a list. -/
structure Linearised (s : Store C α) (fs : List (FactorLiteral C α)) (g : LinearGraph C α) : Prop where
  template : s.tangentZeros = .ok g.template
  keys : ∀ f ∈ fs, (GroupKey.ofItems f).Moves → Key.group (.ofItems f) ∈ g.buffers.keys
  group : ∀ k b, k.Moves → g.buffers.get? (.group k) = some b → ∃ G m, b.factors = .ok G ∧
    0 < (members k fs).length ∧ G.Linear s.tangents (members k fs).length m ∧
    ∀ i (hi : i < (members k fs).length), Factor.settledLinear s (members k fs)[i] = .ok (G.row i)

theorem linearStep_eq_ok {F : FactorStack C α} {o : Option (Buffer C α)}
    (hresiduals : b.hasResiduals = true) (hF : b.factors = .ok F) (h : linearStep s.bulk b = .ok o) :
    ∃ G, F.stackLinearized s.bulk = .ok G ∧ o = some (Buffer.of (.factors G) (.factors G.kind)) := by
  rw [linearStep, if_pos hresiduals, hF, Checked.ok_bind] at h
  obtain ⟨G, hG, h⟩ := Checked.bind_eq_ok h
  exact ⟨G, hG, (Except.ok.inj h).symm⟩

theorem linearise_eq_ok (h : graph.linearize s = .ok A) :
    (graph.buffers.filterMapM fun _ b => linearStep s.bulk b) = .ok A.buffers ∧
      s.tangentZeros = .ok A.template := by
  obtain ⟨buffers, hbuffers, h⟩ := Checked.bind_eq_ok h
  obtain ⟨zeros, hzeros, h⟩ := Checked.bind_eq_ok h
  cases h
  exact ⟨hbuffers, hzeros⟩

theorem Labelled.linearised (h : Labelled s fs) (hs : s.WellFormed) (hgraph : ofFactors fs = .ok graph)
    (hlinear : graph.linearize s = .ok A) : Linearised s fs A := by
  obtain ⟨hbuffers, htemplate⟩ := linearise_eq_ok hlinear
  have hgroup : ∀ k b, k.Moves → graph.buffers.get? (.group k) = some b → ∃ F G,
      Factor.Motions s (members k fs) F ∧ F.stackLinearized s.bulk = .ok G ∧
      A.buffers.get? (.group k) = some (Buffer.of (.factors G) (.factors G.kind)) := by
    intro k b hk hb
    obtain ⟨hresiduals, F, hF, hmotions⟩ := h.motions hs hgraph hk hb
    obtain ⟨G, hG, hget⟩ := linearStep_eq_ok hresiduals hF (Table.get?_filterMapM hbuffers hb)
    exact ⟨F, G, hmotions, hG, hget⟩
  refine ⟨htemplate, fun f hf hk => ?_, fun k c hk hc => ?_⟩
  · obtain ⟨b, hb⟩ := Table.mem_keys_iff.1 (mem_keys_of_ofFactors hgraph hf)
    obtain ⟨F, G, -, -, hget⟩ := hgroup _ b hk hb
    exact Table.mem_keys_iff.2 ⟨_, hget⟩
  · cases hb : graph.buffers.get? (.group k) with
    | none =>
      rw [Table.get?_filterMapM_none hbuffers hb] at hc
      cases hc
    | some b =>
      obtain ⟨F, G, hmotions, hG, hget⟩ := hgroup k b hk hb
      obtain rfl := Option.some.inj (hc.symm.trans hget)
      obtain ⟨⟨m, hlinear⟩, hrows⟩ := hmotions.linearized hG
      exact ⟨G, m, rfl, hmotions.positive, hlinear, hrows⟩

/-- Where the factors of relative motions stand in a linear graph. -/
theorem Linearised.rowOf (h : Linearised s fs A) {j : Nat} (hj : j < fs.length)
    (hk : (GroupKey.ofItems fs[j]).Moves) : ∃ g,
      A.rowOf (.ofItems fs[j]) (place (.ofItems fs[j]) fs j) = .ok g ∧
      Factor.settledLinear s fs[j] = .ok g := by
  obtain ⟨b, hb⟩ := Table.mem_keys_iff.1 (h.keys _ (List.getElem_mem hj) hk)
  obtain ⟨G, m, hG, -, -, hrows⟩ := h.group _ b hk hb
  obtain ⟨hi, hget⟩ := members_place hj
  refine ⟨_, ?_, hget ▸ hrows _ hi⟩
  rw [LinearGraph.rowOf, hb, fitting_some, Checked.ok_bind, hG]
  rfl

/-! ## Success -/

/-- A graph is linearised if its settled factors are, and all other groups. -/
theorem Labelled.linearize_iff (h : Labelled s fs) (hs : s.WellFormed) (hgraph : ofFactors fs = .ok graph) :
    (∃ A, graph.linearize s = .ok A) ↔
      (∀ key b, ¬ Among GroupKey.Moves key → graph.buffers.get? key = some b →
        ∃ o, linearStep s.bulk b = .ok o) ∧
      ∀ f ∈ fs, (GroupKey.ofItems f).Moves → ∃ g, Factor.settledLinear s f = .ok g := by
  constructor
  · rintro ⟨A, hA⟩
    obtain ⟨hbuffers, -⟩ := linearise_eq_ok hA
    refine ⟨fun key b _ hb => ⟨_, Table.get?_filterMapM hbuffers hb⟩, fun f hf hk => ?_⟩
    obtain ⟨j, hj, rfl⟩ := List.getElem_of_mem hf
    obtain ⟨g, -, hg⟩ := (h.linearised hs hgraph hA).rowOf hj hk
    exact ⟨g, hg⟩
  · rintro ⟨hother, hall⟩
    obtain ⟨zeros, hzeros, -⟩ := hs.tangentZeros_fills
    obtain ⟨buffers, hbuffers⟩ := Table.exists_filterMapM (t := graph.buffers)
      (f := fun _ b => linearStep s.bulk b) fun e he => by
        obtain ⟨key, b⟩ := e
        have hb := Table.get?_eq_some_iff.2 he
        by_cases hkey : Among GroupKey.Moves key
        · cases key with
          | type => cases hkey
          | group k =>
            obtain ⟨hresiduals, F, hF, hmotions⟩ := h.motions hs hgraph hkey hb
            obtain ⟨G, hG⟩ := hmotions.exists_stackLinearized fun i hi => by
              have hmem := List.getElem_mem hi
              exact hall _ (List.mem_filter.1 hmem).1 (by rwa [key_of_mem_members hmem])
            refine ⟨some (Buffer.of (.factors G) (.factors G.kind)), ?_⟩
            show linearStep s.bulk b = _
            rw [linearStep, if_pos hresiduals, hF, Checked.ok_bind, hG]
            rfl
        · exact hother key b hkey hb
    exact ⟨⟨buffers, zeros⟩, by
      show (graph.buffers.filterMapM fun _ b => linearStep s.bulk b) >>= _ = _
      rw [hbuffers, Checked.ok_bind, hzeros]
      rfl⟩

theorem settledLinear_settled {e : FactorLiteral C α} (h : f.settled s = .ok e) :
    Factor.settledLinear s e = Factor.settledLinear s f := by
  rw [Factor.settledLinear, Factor.settledLinear, Factor.settledReals_settled h]

theorem Settled.linearize_iff (hfs : Settled s fs fs') (h : Labelled s fs) (hs : s.WellFormed)
    (hgraph : ofFactors fs = .ok graph) (hgraph' : ofFactors fs' = .ok graph') :
    (∃ A, graph.linearize s = .ok A) ↔ ∃ B, graph'.linearize s = .ok B := by
  rw [h.linearize_iff hs hgraph, (hfs.labelled h).linearize_iff hs hgraph']
  refine and_congr (forall_congr' fun key => forall_congr' fun b => ?_) ?_
  · refine imp_congr_right fun hkey => ?_
    rw [get?_eq_of_not_among hgraph hgraph' (fun k => hfs.members_eq) hkey]
  · constructor
    · intro hall e he hk
      obtain ⟨j, hj, rfl⟩ := List.getElem_of_mem he
      have hsettled := hfs.getElem (hfs.length_eq ▸ hj) hj
      rw [settledLinear_settled hsettled]
      exact hall _ (List.getElem_mem _) ((Factor.moves_settled hsettled).2 hk)
    · intro hall f hf hk
      obtain ⟨j, hj, rfl⟩ := List.getElem_of_mem hf
      have hsettled := hfs.getElem hj (hfs.length_eq ▸ hj)
      rw [← settledLinear_settled hsettled]
      exact hall _ (List.getElem_mem _) ((Factor.moves_settled hsettled).1 hk)

/-! ## Two linear graphs -/

/-- Groups other than those of relative motions become the same. -/
theorem Settled.get?_eq (hfs : Settled s fs fs') (hgraph : ofFactors fs = .ok graph)
    (hgraph' : ofFactors fs' = .ok graph') (hA : graph.linearize s = .ok A)
    (hB : graph'.linearize s = .ok B) {key : Key C} (hkey : ¬ Among GroupKey.Moves key) :
    A.buffers.get? key = B.buffers.get? key := by
  have hget := get?_eq_of_not_among hgraph hgraph' (fun k => hfs.members_eq) hkey
  obtain ⟨hA, -⟩ := linearise_eq_ok hA
  obtain ⟨hB, -⟩ := linearise_eq_ok hB
  cases hb : graph.buffers.get? key with
  | none =>
    rw [Table.get?_filterMapM_none hA hb, Table.get?_filterMapM_none hB (hget ▸ hb)]
  | some b =>
    exact Except.ok.inj ((Table.get?_filterMapM hA hb).symm.trans (Table.get?_filterMapM hB (hget ▸ hb)))

omit [FactorFamily C] in
/-- What depends on a factor by its group and its row there is the same for factors of other groups. -/
theorem Settled.at_eq {β : Type} (hfs : Settled s fs fs') {F F' : GroupKey C → Nat → Checked β}
    (hmoves : ∀ j (hj : j < fs.length) (hj' : j < fs'.length), (GroupKey.ofItems fs[j]).Moves →
      F (.ofItems fs[j]) (place (.ofItems fs[j]) fs j) = F' (.ofItems fs'[j]) (place (.ofItems fs'[j]) fs' j))
    (hother : ∀ k i, ¬ k.Moves → F k i = F' k i) (j : Nat) :
    (fitting fs[j]? >>= fun f => F (.ofItems f) (place (.ofItems f) fs j)) =
      fitting fs'[j]? >>= fun f => F' (.ofItems f) (place (.ofItems f) fs' j) := by
  by_cases hj : j < fs.length
  · have hj' : j < fs'.length := hfs.length_eq ▸ hj
    rw [List.getElem?_eq_getElem hj, List.getElem?_eq_getElem hj', fitting_some, fitting_some,
      Checked.ok_bind, Checked.ok_bind]
    by_cases hk : (GroupKey.ofItems fs[j]).Moves
    · exact hmoves j hj hj' hk
    · have hsettled := hfs.getElem hj hj'
      rw [Factor.eq_of_not_moves hsettled hk, hother _ _ hk, hfs.place_eq hk]
  · have hj' : ¬ j < fs'.length := hfs.length_eq ▸ hj
    rw [List.getElem?_eq_none (by omega), List.getElem?_eq_none (by omega)]
    rfl

/-- A factor of a relative motion has become the same as the settled one. -/
theorem Settled.rowOf_eq (hfs : Settled s fs fs') (hA : Linearised s fs A) (hB : Linearised s fs' B) {j : Nat}
    (hj : j < fs.length) (hj' : j < fs'.length) (hk : (GroupKey.ofItems fs[j]).Moves) :
    A.rowOf (.ofItems fs[j]) (place (.ofItems fs[j]) fs j) =
      B.rowOf (.ofItems fs'[j]) (place (.ofItems fs'[j]) fs' j) := by
  have hsettled := hfs.getElem hj hj'
  obtain ⟨g, hg, hlinear⟩ := hA.rowOf hj hk
  obtain ⟨g', hg', hlinear'⟩ := hB.rowOf hj' ((Factor.moves_settled hsettled).1 hk)
  rw [settledLinear_settled hsettled] at hlinear'
  rw [hg, hg', Except.ok.inj (hlinear.symm.trans hlinear')]

/-- Factor by factor, both linear graphs have the same linear factors. -/
theorem Settled.factorAt_eq (hfs : Settled s fs fs') (hA : Linearised s fs A) (hB : Linearised s fs' B)
    (hother : ∀ key, ¬ Among GroupKey.Moves key → A.buffers.get? key = B.buffers.get? key) (j : Nat) :
    A.factorAt fs j = B.factorAt fs' j := by
  refine hfs.at_eq (fun j hj hj' hk => hfs.rowOf_eq hA hB hj hj' hk) (fun k i hk => ?_) j
  rw [LinearGraph.rowOf, LinearGraph.rowOf, hother (.group k) hk]

/-! ## Mapping vectors -/

/-- One group of the image of a vector. -/
theorem get?_forward {read : Reader α} {z : Vectors C α} (h : A.forward read = .ok z) {key : Key C}
    (hb : A.buffers.get? key = some b) : ∃ F y, b.factors = .ok F ∧ F.stackForward read = .ok y ∧
      z.buffers.get? key = some (.ofVectors key y) := by
  obtain ⟨buffers, hbuffers, h⟩ := Checked.bind_eq_ok h
  cases h
  have hstep := Table.get?_filterMapM hbuffers hb
  obtain ⟨c, hc, hstep⟩ := Checked.bind_eq_ok hstep
  obtain ⟨F, hF, hc⟩ := Checked.bind_eq_ok hc
  obtain ⟨y, hy, hc⟩ := Checked.bind_eq_ok hc
  cases hc
  exact ⟨F, y, hF, hy, (Except.ok.inj hstep).symm⟩

theorem get?_forward_none {read : Reader α} {z : Vectors C α} (h : A.forward read = .ok z) {key : Key C}
    (hb : A.buffers.get? key = none) : z.buffers.get? key = none := by
  obtain ⟨buffers, hbuffers, h⟩ := Checked.bind_eq_ok h
  cases h
  exact Table.get?_filterMapM_none hbuffers hb

theorem exists_forward {read : Reader α} (h : ∀ key b, A.buffers.get? key = some b →
    ∃ F y, b.factors = .ok F ∧ F.stackForward read = .ok y) : ∃ z, A.forward read = .ok z := by
  obtain ⟨buffers, hbuffers, -⟩ := Table.mapM_ok (t := A.buffers)
    (f := fun key b => do return Buffer.ofVectors key (← Factor.stackForward read (← b.factors)))
    fun key b hb => by
      obtain ⟨F, y, hF, hy⟩ := h key b hb
      exact ⟨.ofVectors key y, by rw [hF, Checked.ok_bind, hy]; rfl⟩
  refine ⟨⟨buffers⟩, ?_⟩
  show (A.buffers.mapM fun key b => do
    return Buffer.ofVectors key (← Factor.stackForward read (← b.factors))) >>= _ = _
  rw [hbuffers]
  rfl

/-- The image of a vector in a group of relative motions. -/
theorem Linearised.rowOf_forward (h : Linearised s fs A) (hs : s.WellFormed) {x : Vectors C α}
    (hx : x.Fits s.tangents) {z : Vectors C α} (hz : A.forward x.bulk = .ok z) {j : Nat}
    (hj : j < fs.length) (hk : (GroupKey.ofItems fs[j]).Moves) :
    z.rowOf (.ofItems fs[j]) (place (.ofItems fs[j]) fs j) =
      A.rowOf (.ofItems fs[j]) (place (.ofItems fs[j]) fs j) >>= fun g =>
        g.values x.bulk >>= g.forward := by
  obtain ⟨b, hb⟩ := Table.mem_keys_iff.1 (h.keys _ (List.getElem_mem hj) hk)
  obtain ⟨G, m, hG, hpositive, hlinear, -⟩ := h.group _ b hk hb
  obtain ⟨t, ht, hrows⟩ := hlinear.forward_rows hpositive hs.tangent hx
  obtain ⟨F, y, hF, hy, hget⟩ := get?_forward hz hb
  obtain rfl := Except.ok.inj (hF.symm.trans hG)
  obtain rfl := Except.ok.inj (hy.symm.trans ht)
  obtain ⟨hi, -⟩ := members_place hj
  have hvectors : (z.buffer (.group (.ofItems fs[j]))).rows = .ok (.reals t) := by
    rw [Vectors.buffer, Buffers.buffer_of_get? hget]
    rfl
  rw [Vectors.rowOf, hvectors, LinearGraph.rowOf, hb, fitting_some, Checked.ok_bind, Checked.ok_bind, hF]
  exact (hrows _ hi).symm

/-- Both linear graphs map vectors in the same way, factor by factor. -/
theorem Settled.forward_eq (hfs : Settled s fs fs') (hA : Linearised s fs A) (hB : Linearised s fs' B)
    (hs : s.WellFormed)
    (hother : ∀ key, ¬ Among GroupKey.Moves key → A.buffers.get? key = B.buffers.get? key)
    {x : Vectors C α} (hx : x.Fits s.tangents) :
    Matches (SameRows fs fs') (A.forward x.bulk) (B.forward x.bulk) := by
  have hgroup : ∀ {fs : List (FactorLiteral C α)} {A : LinearGraph C α}, Linearised s fs A → ∀ k b,
      k.Moves → A.buffers.get? (.group k) = some b → ∃ F y, b.factors = .ok F ∧
        F.stackForward x.bulk = .ok y := by
    intro fs A h k b hk hb
    obtain ⟨G, m, hG, hpositive, hlinear, -⟩ := h.group k b hk hb
    obtain ⟨t, ht, -⟩ := hlinear.forward_rows hpositive hs.tangent hx
    exact ⟨G, _, hG, ht⟩
  have hsucceeds : ∀ {fs : List (FactorLiteral C α)} {A B : LinearGraph C α}, Linearised s fs B →
      (∀ key, ¬ Among GroupKey.Moves key → A.buffers.get? key = B.buffers.get? key) →
      (∃ z, A.forward x.bulk = .ok z) → ∃ z, B.forward x.bulk = .ok z := by
    rintro fs A B h hother ⟨z, hz⟩
    refine exists_forward fun key b hb => ?_
    by_cases hkey : Among GroupKey.Moves key
    · cases key with
      | type => cases hkey
      | group k => exact hgroup h k b hkey hb
    · obtain ⟨F, y, hF, hy, -⟩ := get?_forward hz ((hother key hkey).trans hb)
      exact ⟨F, y, hF, hy⟩
  refine Checked.matches_of_iff ⟨hsucceeds hB hother, hsucceeds hA fun key hkey => (hother key hkey).symm⟩
    fun z z' hz hz' => ?_
  have hbuffer : ∀ key, ¬ Among GroupKey.Moves key → z.buffer key = z'.buffer key := by
    intro key hkey
    have hget : z.buffers.get? key = z'.buffers.get? key := by
      cases hb : A.buffers.get? key with
      | none => rw [get?_forward_none hz hb, get?_forward_none hz' ((hother key hkey).symm.trans hb)]
      | some b =>
        obtain ⟨F, y, hF, hy, hget⟩ := get?_forward hz hb
        obtain ⟨F', y', hF', hy', hget'⟩ := get?_forward hz' ((hother key hkey).symm.trans hb)
        obtain rfl := Except.ok.inj (hF.symm.trans hF')
        obtain rfl := Except.ok.inj (hy.symm.trans hy')
        rw [hget, hget']
    show (z.buffers.get? key).getD .empty = (z'.buffers.get? key).getD .empty
    rw [hget]
  refine ⟨hfs.at_eq (fun j hj hj' hk => ?_) fun k i hk => ?_, hbuffer⟩
  · have hsettled := hfs.getElem hj hj'
    have hk' := (Factor.moves_settled hsettled).1 hk
    rw [hA.rowOf_forward hs hx hz hj hk, hB.rowOf_forward hs hx hz' hj' hk',
      hfs.rowOf_eq hA hB hj hj' hk]
  · rw [Vectors.rowOf, Vectors.rowOf, hbuffer (.group k) hk]

end FactorGraph

end LeastSquares
