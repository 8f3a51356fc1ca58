import LeastSquares.Proofs.Array.Plain
import LeastSquares.Proofs.Value.Homomorphism
import LeastSquares.Proofs.Value.Tree

/-!
# Values without traces

The steps between the arrays of variables and a residual, over traced numbers: tangent vectors from a
value to another, and the noise that weighs them. What succeeds with traces succeeds without them, with
the same values.
-/

namespace LeastSquares

variable {α : Type} [Scalar α]

/-! ## Blocks brought to one kind -/

namespace Block

theorem toInts_plain (b : Block (Traced α)) : b.plain.toInts = b.toInts := by
  cases b with
  | reals t => exact Tensor.map_map t Traced.value _
  | bools | ints => rfl

theorem toBools_plain (b : Block (Traced α)) : b.plain.toBools = b.toBools := by
  cases b with
  | reals t => exact Tensor.map_map t Traced.value _
  | bools | ints => rfl

omit [Scalar α] in
theorem widest_plain (bs : List (Block (Traced α))) : widest (bs.map plain) = widest bs := by
  rw [widest, List.foldl_map]
  simp only [kind_plain]
  rfl

theorem gather?_plain {f : {γ : Type} → [Inhabited γ] → List (Tensor γ) → Option (Tensor γ)}
    (h : ∀ ts : List (Tensor (Traced α)), f (ts.map Tensor.plain) = (f ts).map Tensor.plain)
    (bs : List (Block (Traced α))) : gather? (bs.map plain) f = (gather? bs f).map plain := by
  have hreals : (bs.map plain).map toReals = (bs.map toReals).map Tensor.plain := by
    rw [List.map_map, List.map_map]
    exact List.map_congr_left fun b _ => toReals_plain b
  have hints : (bs.map plain).map toInts = bs.map toInts := by
    rw [List.map_map]
    exact List.map_congr_left fun b _ => toInts_plain b
  have hbools : (bs.map plain).map toBools = bs.map toBools := by
    rw [List.map_map]
    exact List.map_congr_left fun b _ => toBools_plain b
  rw [gather?, gather?, widest_plain]
  cases widest bs with
  | bool =>
    dsimp only
    rw [hbools, Option.map_map]
    rfl
  | int =>
    dsimp only
    rw [hints, Option.map_map]
    rfl
  | real =>
    dsimp only
    rw [hreals, h, Option.map_map, Option.map_map]
    rfl

end Block

/-! ## Values -/

namespace Value

/-- The value with the values of its numbers. -/
def plain (v : Value (Traced α)) : Value α := v.map Block.plain

omit [Scalar α] in
theorem single?_plain (v : Value (Traced α)) : v.plain.single? = v.single?.map Block.plain := by
  cases v <;> rfl

omit [Scalar α] in
theorem array_plain {v : Value (Traced α)} {b : Block (Traced α)} (h : v.array = .ok b) :
    v.plain.array = .ok b.plain := by
  rw [array, single?_plain, fitting_eq_ok h]
  rfl

theorem flatten_plain {v : Value (Traced α)} {b : Block (Traced α)} (h : v.flatten = .ok b) :
    v.plain.flatten = .ok b.plain := by
  have hleaves : Tree.leaves v.plain = (Tree.leaves v).map Block.plain := Tree.leaves_map _ v
  unfold flatten at h ⊢
  rw [hleaves]
  split at h
  next hnil =>
    cases h
    rw [hnil]
    exact congrArg (fun t => Except.ok (Block.reals t)) (Tensor.plain_generate ..).symm
  next bs hne =>
    have hconcat : ∀ ts : List (Tensor (Traced α)),
        Tensor.vector ((ts.map Tensor.plain).foldl (fun cells t => cells ++ t.cells) #[]) =
          (Tensor.vector (ts.foldl (fun cells t => cells ++ t.cells) #[])).plain := by
      intro ts
      have hcells : ((ts.map Tensor.plain).foldl (fun cells t => cells ++ t.cells) #[] : Array α) =
          (ts.foldl (fun cells t => cells ++ t.cells) #[]).map Traced.value := by
        rw [← Array.toList_inj, Array.toList_map, Tensor.toList_concat_cells,
          Tensor.toList_concat_cells, List.flatMap_map]
        simp [List.map_flatMap, Tensor.plain, Tensor.map]
      rw [hcells]
      simp [Tensor.vector, Tensor.plain, Tensor.map]
    have hgather := Block.gather?_plain (f := fun ts => some (Tensor.vector
      (ts.foldl (fun cells t => cells ++ t.cells) #[]))) (fun ts => congrArg some (hconcat ts))
      (Tree.leaves v)
    rw [fitting_eq_ok h] at hgather
    split
    next hnil => exact absurd (by simpa using hnil) hne
    next => rw [hgather, Option.map_some, fitting_some]

/-- Both nodes are single elements of a group. -/
def Elements {β : Type} (l : Label) (cs : List (Tree β)) (l' : Label) (ds : List (Tree β)) : Prop :=
  ∃ g a h b, l = .group g ∧ cs = [.leaf a] ∧ l' = .group h ∧ ds = [.leaf b]

omit [Scalar α] in
theorem elements_of_map {β γ : Type} {f : β → γ} {l l' : Label} {cs ds : List (Tree β)}
    (h : Elements l (Tree.map.all f cs) l' (Tree.map.all f ds)) : Elements l cs l' ds := by
  have hleaf : ∀ {cs : List (Tree β)} {c : γ}, Tree.map.all f cs = [.leaf c] →
      ∃ b, cs = [.leaf b] := by
    intro cs c h
    match cs, h with
    | [.leaf b], _ => exact ⟨b, rfl⟩
  obtain ⟨g, a, h, b, hl, hcs, hl', hds⟩ := h
  obtain ⟨a, rfl⟩ := hleaf hcs
  obtain ⟨b, rfl⟩ := hleaf hds
  exact ⟨g, a, h, b, hl, rfl, hl', rfl⟩

/-- Nodes that are no elements of groups are compared part by part. -/
theorem difference?_nodes {l l' : Label} {cs ds : List (Value α)} (h : ¬ Elements l cs l' ds) :
    difference? (.node l cs) (.node l' ds) =
      if l = l' then (difference?.all cs ds).map (.node l) else none :=
  difference?.eq_4 l cs l' ds fun g a k b hl hcs hl' hds => h ⟨g, a, k, b, hl, hcs, hl', hds⟩

theorem difference?_node_other {l : Label} {cs : List (Value α)} {w : Value α}
    (h : ∀ l' ds, w ≠ .node l' ds) : difference? (.node l cs) w = none :=
  difference?.eq_5 _ _ nofun (fun _ _ _ _ _ hw => h _ _ hw) nofun fun _ _ _ _ _ hw => h _ _ hw

mutual

theorem difference?_plain : (v w : Value (Traced α)) →
    difference? v.plain w.plain = (difference? v w).map plain
  | .leaf b, .leaf c => by
    show ((b.plain.sub? c.plain).map Tree.leaf) = ((b.sub? c).map Tree.leaf).map plain
    rw [Block.sub?_plain, Option.map_map, Option.map_map]
    rfl
  | .absent, .absent => rfl
  | .node l cs, .node l' ds => by
    by_cases hgroup : Elements l cs l' ds
    · obtain ⟨g, a, h, b, rfl, rfl, rfl, rfl⟩ := hgroup
      refine ite_none_map Iff.rfl ?_
      show (g.difference? a.plain.toReals b.plain.toReals).map _ =
        ((g.difference? a.toReals b.toReals).map _).map _
      rw [Block.toReals_plain, Block.toReals_plain, LieGroup.difference?_plain, Option.map_map,
        Option.map_map]
      rfl
    · show difference? (.node l (Tree.map.all Block.plain cs)) (.node l' (Tree.map.all Block.plain ds)) = _
      rw [difference?_nodes hgroup, difference?_nodes (mt elements_of_map hgroup)]
      refine ite_none_map Iff.rfl ?_
      rw [difference?_all_plain cs ds, Option.map_map, Option.map_map]
      rfl
  | .leaf _, .absent => rfl
  | .leaf _, .node .. => rfl
  | .absent, .leaf _ => rfl
  | .absent, .node .. => rfl
  | .node l cs, .leaf _ => by
    rw [difference?_node_other (by simp)]
    exact difference?_node_other (by simp [plain, Tree.map])
  | .node l cs, .absent => by
    rw [difference?_node_other (by simp)]
    exact difference?_node_other (by simp [plain, Tree.map])

theorem difference?_all_plain : (cs ds : List (Value (Traced α))) →
    difference?.all (Tree.map.all Block.plain cs) (Tree.map.all Block.plain ds) =
      (difference?.all cs ds).map (Tree.map.all Block.plain)
  | [], [] => rfl
  | [], _ :: _ => rfl
  | _ :: _, [] => rfl
  | c :: cs, d :: ds => by
    have hhead : difference? (c.map Block.plain) (d.map Block.plain) = (difference? c d).map plain :=
      difference?_plain c d
    simp only [Tree.map.all, difference?.all, hhead, difference?_all_plain cs ds]
    cases difference? c d with
    | none => rfl
    | some e => cases difference?.all cs ds <;> rfl

end

/-- The tangent vector between relative motions. -/
theorem betweenResidual_plain {a b expected : Value (Traced α)} {r : Block (Traced α)}
    (h : a.betweenResidual b expected = .ok r) :
    a.plain.betweenResidual b.plain expected.plain = .ok r.plain :=
  (betweenResidual_map Traced.valueHom a b expected).trans (congrArg _ h)

end Value

/-- The value as it is read, with the values of its numbers. -/
def Found.plain (x : Found (Traced α)) : Found α := ⟨x.value.plain, x.access⟩

theorem VariableType.localCoordinates_plain {t : VariableType} {x y d : Value (Traced α)}
    (h : t.localCoordinates x y = .ok d) : t.localCoordinates x.plain y.plain = .ok d.plain := by
  have hflat : (y.flatten >>= fun target => x.flatten >>= fun flat => fitting (target.sub? flat) >>=
      fun d => Except.ok (Value.ofBlock d)) = .ok d →
      (y.plain.flatten >>= fun target => x.plain.flatten >>= fun flat => fitting (target.sub? flat) >>=
        fun d => Except.ok (Value.ofBlock d)) = .ok d.plain := by
    intro h
    obtain ⟨target, htarget, h⟩ := Checked.bind_eq_ok h
    obtain ⟨flat, hflat, h⟩ := Checked.bind_eq_ok h
    obtain ⟨d', hd, h⟩ := Checked.bind_eq_ok h
    cases h
    rw [Value.flatten_plain htarget, Checked.ok_bind, Value.flatten_plain hflat, Checked.ok_bind,
      Block.sub?_plain, fitting_eq_ok hd]
    rfl
  cases t with
  | lie g =>
    show fitting (Value.difference? x.plain y.plain) = _
    rw [Value.difference?_plain, fitting_eq_ok h]
    rfl
  | real | discrete | euclidean => exact hflat h

namespace Noise

/-- The noise model with the values of its numbers. -/
def plain (n : Noise (Traced α)) : Noise α := n.map Traced.value

omit [Scalar α] in
theorem ofTree?_plain {v : Value (Traced α)} {n : Noise (Traced α)} (h : ofTree? v = some n) :
    ofTree? v.plain = some n.plain := (ofTree?_map Traced.value v).trans (congrArg _ h)

theorem whiten_plain {n : Noise (Traced α)} {r w : Block (Traced α)} (h : n.whiten r = .ok w) :
    n.plain.whiten r.plain = .ok w.plain :=
  (whiten_map Traced.valueHom n r).trans (congrArg _ h)

end Noise

end LeastSquares
