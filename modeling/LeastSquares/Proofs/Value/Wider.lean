import LeastSquares.Proofs.Array.Wider
import LeastSquares.Proofs.Value.Plain

/-!
# Values in wider kinds

Values that hold the same numbers, leaf by leaf, in kinds as wide. The steps between the arrays of
variables and a residual give the same numbers for both: tangent vectors from a value to another, the
noise that weighs them, and rows that a label chooses.
-/

namespace LeastSquares

theorem forall₂_pair {β γ : Type} {R : β → γ → Prop} {x y : β} {l : List γ}
    (h : List.Forall₂ R [x, y] l) : ∃ x' y', l = [x', y'] ∧ R x x' ∧ R y y' := by
  obtain ⟨x', _, hx, htail, rfl⟩ := List.forall₂_cons_left_iff.1 h
  obtain ⟨y', _, hy, hnil, rfl⟩ := List.forall₂_cons_left_iff.1 htail
  rw [List.forall₂_nil_left_iff.1 hnil]
  exact ⟨x', y', rfl, hx, hy⟩

/-! ## Trees that agree leaf by leaf -/

namespace Tree

variable {β γ δ ε : Type} {R : β → γ → Prop} {S : δ → ε → Prop}

/-- Trees of one skeleton whose leaves are related, one by one. -/
def Alike (R : β → γ → Prop) : Tree β → Tree γ → Prop
  | leaf b, leaf c => R b c
  | absent, absent => True
  | node l cs, node l' ds => l = l' ∧ all cs ds
  | _, _ => False
where
  all : List (Tree β) → List (Tree γ) → Prop
    | [], [] => True
    | c :: cs, d :: ds => Alike R c d ∧ all cs ds
    | _, _ => False

theorem Alike.leaf_left {b : β} {t : Tree γ} (h : Alike R (leaf b) t) : ∃ c, t = leaf c ∧ R b c := by
  cases t with
  | leaf c => exact ⟨c, rfl, h⟩
  | absent | node => exact h.elim

theorem Alike.node_left {l : Label} {cs : List (Tree β)} {t : Tree γ} (h : Alike R (node l cs) t) :
    ∃ ds, t = node l ds ∧ Alike.all R cs ds := by
  cases t with
  | node l' ds =>
    obtain ⟨rfl, hall⟩ := h
    exact ⟨ds, rfl, hall⟩
  | leaf | absent => exact h.elim

theorem Alike.absent_left {t : Tree γ} (h : Alike R absent t) : t = absent := by
  cases t with
  | absent => rfl
  | leaf | node => exact h.elim

theorem alike_all_iff {cs : List (Tree β)} {ds : List (Tree γ)} :
    Alike.all R cs ds ↔ List.Forall₂ (Alike R) cs ds := by
  induction cs generalizing ds with
  | nil => cases ds <;> simp [Alike.all]
  | cons c cs ih => cases ds <;> simp [Alike.all, ih]

mutual

theorem alike_iff : (s : Tree β) → {t : Tree γ} →
    (Alike R s t ↔ s.skeleton = t.skeleton ∧ List.Forall₂ R s.leaves t.leaves)
  | leaf b, t => by
    cases t with
    | leaf c => simp [Alike, skeleton, map, leaves]
    | absent | node => simp [Alike, skeleton, map]
  | absent, t => by
    cases t with
    | absent => simp [Alike, skeleton, map, leaves]
    | leaf | node => simp [Alike, skeleton, map]
  | node l cs, t => by
    cases t with
    | leaf | absent => simp [Alike, skeleton, map]
    | node l' ds =>
      rw [skeleton_node, skeleton_node]
      simp only [Alike, leaves, node.injEq, alike_all_iff_leaves cs, and_assoc]

theorem alike_all_iff_leaves : (cs : List (Tree β)) → {ds : List (Tree γ)} →
    (Alike.all R cs ds ↔ cs.map skeleton = ds.map skeleton ∧
      List.Forall₂ R (leaves.all cs) (leaves.all ds))
  | [], ds => by cases ds <;> simp [Alike.all, leaves.all]
  | c :: cs, [] => by simp [Alike.all]
  | c :: cs, d :: ds => by
    simp only [Alike.all, List.map_cons, List.cons.injEq, leaves.all, alike_iff c, alike_all_iff_leaves cs]
    constructor
    · rintro ⟨⟨hc, hleaves⟩, hcs, hrest⟩
      exact ⟨⟨hc, hcs⟩, List.rel_append hleaves hrest⟩
    · rintro ⟨⟨hc, hcs⟩, hall⟩
      have hlength : c.leaves.length = d.leaves.length := length_leaves_eq hc
      have htake := List.forall₂_take c.leaves.length hall
      have hdrop := List.forall₂_drop c.leaves.length hall
      rw [List.take_left' rfl, List.take_left' hlength.symm] at htake
      rw [List.drop_left' rfl, List.drop_left' hlength.symm] at hdrop
      exact ⟨⟨hc, htake⟩, hcs, hdrop⟩

end

theorem Alike.node_leaf {l : Label} {b : β} {t : Tree γ} (h : Alike R (node l [leaf b]) t) :
    ∃ c, t = node l [leaf c] ∧ R b c := by
  obtain ⟨ds, rfl, hall⟩ := h.node_left
  obtain ⟨d, rest, hd, hrest, rfl⟩ := List.forall₂_cons_left_iff.1 (alike_all_iff.1 hall)
  obtain ⟨c, rfl, hR⟩ := hd.leaf_left
  rw [List.forall₂_nil_left_iff.1 hrest]
  exact ⟨c, rfl, hR⟩

theorem Alike.single? {s : Tree β} {t : Tree γ} (h : Alike R s t) {b : β} (hb : s.single? = some b) :
    ∃ c, t.single? = some c ∧ R b c := by
  cases s with
  | leaf b' =>
    obtain ⟨c, rfl, hR⟩ := h.leaf_left
    cases hb
    exact ⟨c, rfl, hR⟩
  | absent | node => cases hb

section Traverse

variable {f : β → Option δ} {g : γ → Option ε}
  (hfg : ∀ b c d, R b c → f b = some d → ∃ e, g c = some e ∧ S d e)

include hfg

/-- Leaf by leaf, trees that agree have images that agree. -/
theorem Alike.traverse {s : Tree β} {t : Tree γ} {u : Tree δ} (h : Alike R s t)
    (hu : s.traverse f = some u) : ∃ v, t.traverse g = some v ∧ Alike S u v := by
  obtain ⟨hskeleton, hleaves⟩ := (alike_iff s).1 h
  obtain ⟨huskeleton, himages⟩ := traverse_spec s hu
  obtain ⟨v, hv⟩ := traverse_ok t fun c hc => by
    obtain ⟨i, hi, rfl⟩ := List.getElem_of_mem hc
    have hi' : i < s.leaves.length := hleaves.length_eq ▸ hi
    obtain ⟨e, he, -⟩ := hfg _ _ _ (hleaves.get hi' hi) (himages.get hi' (himages.length_eq ▸ hi'))
    exact ⟨e, he⟩
  obtain ⟨hvskeleton, himages'⟩ := traverse_spec t hv
  refine ⟨v, hv, (alike_iff u).2 ⟨huskeleton.trans (hskeleton.trans hvskeleton.symm), ?_⟩⟩
  have hlength : u.leaves.length = v.leaves.length :=
    himages.length_eq.symm.trans (hleaves.length_eq.trans himages'.length_eq)
  refine List.forall₂_iff_get.2 ⟨hlength, fun i hi hi' => ?_⟩
  have hs : i < s.leaves.length := himages.length_eq ▸ hi
  have ht : i < t.leaves.length := himages'.length_eq ▸ hi'
  obtain ⟨e, he, hS⟩ := hfg _ _ _ (hleaves.get hs ht) (himages.get hs hi)
  have himage := himages'.get ht hi'
  obtain rfl := Option.some.inj (he.symm.trans himage)
  exact hS

end Traverse

end Tree

/-! ## Values -/

namespace Value

section Parts

variable {α : Type} [Scalar α] {v w : Value α}

/-- The value holds the same numbers, in kinds as wide. -/
abbrev Wider (v w : Value α) : Prop := Tree.Alike Block.Wider v w

theorem Wider.array (h : v.Wider w) {b : Block α} (hb : v.array = .ok b) :
    ∃ c, w.array = .ok c ∧ b.Wider c := by
  obtain ⟨c, hc, hwider⟩ := Tree.Alike.single? h (fitting_eq_ok hb)
  exact ⟨c, by rw [Value.array, hc, fitting_some], hwider⟩

theorem Wider.take (h : v.Wider w) {access : Access} {index : Block α} {u : Value α}
    (hu : v.take access index = .ok u) : ∃ u', w.take access index = .ok u' ∧ u.Wider u' := by
  obtain ⟨u', hu', hwider⟩ := Tree.Alike.traverse (fun _ _ _ hb => hb.take?) h (fitting_eq_ok hu)
  exact ⟨u', by rw [Value.take, hu', fitting_some], hwider⟩

/-- The elements of a group are their parameters as numbers. -/
theorem Wider.group? (h : v.Wider w) : Value.group? w = Value.group? v := by
  match v, h with
  | .leaf _, h =>
    obtain ⟨c, rfl, -⟩ := Tree.Alike.leaf_left h
    rfl
  | .absent, h => rw [Tree.Alike.absent_left h]
  | .node l cs, h =>
    obtain ⟨ds, rfl, hall⟩ := Tree.Alike.node_left h
    cases l with
    | group g =>
      match cs, ds, hall with
      | [], [], _ => rfl
      | [c], [d], ⟨hc, _⟩ =>
        match c, d, hc with
        | .leaf b, .leaf b', hb => exact congrArg (fun t => some (g, t)) (Block.Wider.numbers hb)
        | .absent, .absent, _ => rfl
        | .node .., .node .., _ => rfl
      | c :: _ :: _, d :: _ :: _, _ => cases c <;> cases d <;> rfl
    | tuple | list | fields | fullNoise | diagonalNoise => rfl

theorem Wider.betweenResidual (h : v.Wider w) (a b : Value α) :
    a.betweenResidual b w = a.betweenResidual b v := by
  unfold Value.betweenResidual
  rw [h.group?]

end Parts

variable {α : Type} [LinearOrder α] [ExactScalar α] {v w : Value α}

theorem Wider.flatten (h : v.Wider w) {b : Block α} (hb : v.flatten = .ok b) :
    ∃ c, w.flatten = .ok c ∧ b.Wider c := by
  have hleaves := ((Tree.alike_iff v).1 h).2
  unfold Value.flatten at hb ⊢
  cases hv : v.leaves with
  | nil =>
    rw [hv] at hb hleaves
    rw [List.forall₂_nil_left_iff.1 hleaves]
    exact ⟨b, hb, .refl b⟩
  | cons x xs =>
    rw [hv] at hb hleaves
    obtain ⟨y, ys, hxy, hrest, hw⟩ := List.forall₂_cons_left_iff.1 hleaves
    obtain ⟨u, hu, hkind, hnumbers⟩ := Block.gather?_concat (x :: xs)
    obtain ⟨u', hu', hkind', hnumbers'⟩ := Block.gather?_concat (y :: ys)
    rw [hw]
    dsimp only at hb ⊢
    rw [hu] at hb
    cases hb
    refine ⟨u', by rw [hu', fitting_some], ?_, ?_⟩
    · rw [hnumbers, hnumbers', Block.numbers_flatMap (.cons hxy hrest)]
    · rw [hkind, hkind']
      exact Block.atLeast_widest (.cons hxy hrest)

variable (whole : ∀ i, Scalar.wrap α i = i)
include whole

/-- The tangent vector from a value, given in wider kinds. -/
theorem Wider.localCoordinates (h : v.Wider w) {type : VariableType} {x d : Value α} {b : Block α}
    (hd : type.localCoordinates v x = .ok d) (hb : d.array = .ok b) :
    ∃ d' b', type.localCoordinates w x = .ok d' ∧ d'.array = .ok b' ∧ b.Wider b' := by
  have hflat : ∀ {d : Value α}, (x.flatten >>= fun target => v.flatten >>= fun flat =>
      fitting (target.sub? flat) >>= fun d => Except.ok (Value.ofBlock d)) = .ok d →
      d.array = .ok b → ∃ d' b', (x.flatten >>= fun target => w.flatten >>= fun flat =>
        fitting (target.sub? flat) >>= fun d => Except.ok (Value.ofBlock d)) = .ok d' ∧
        d'.array = .ok b' ∧ b.Wider b' := by
    intro d hd hb
    obtain ⟨target, htarget, hd⟩ := Checked.bind_eq_ok hd
    obtain ⟨flat, hflat, hd⟩ := Checked.bind_eq_ok hd
    obtain ⟨r, hr, hd⟩ := Checked.bind_eq_ok hd
    cases hd
    cases hb
    obtain ⟨flat', hflat', hwider⟩ := h.flatten hflat
    obtain ⟨r', hr', hrwider⟩ := Block.sub?_wider whole (.refl target) hwider (fitting_eq_ok hr)
    refine ⟨.ofBlock r', r', ?_, rfl, hrwider⟩
    rw [htarget, Checked.ok_bind, hflat', Checked.ok_bind, hr']
    rfl
  cases type with
  | real | discrete | euclidean => exact hflat hd hb
  | lie g =>
    have hd := fitting_eq_ok hd
    have hsingle : d.single? = some b := fitting_eq_ok hb
    -- the difference is one array only for two arrays, and for two elements of a group
    match v, x, h with
    | .leaf p, .leaf q, h =>
      obtain ⟨p', rfl, hp⟩ := Tree.Alike.leaf_left h
      obtain ⟨r, hr, rfl⟩ := Option.map_eq_some_iff.1 hd
      cases hsingle
      obtain ⟨r', hr', hrwider⟩ := Block.sub?_wider whole hp (.refl q) hr
      refine ⟨.leaf r', r', ?_, rfl, hrwider⟩
      show fitting ((p'.sub? q).map Tree.leaf) = _
      rw [hr']
      rfl
    | .node l cs, .node l' ds, h =>
      by_cases hgroup : Elements l cs l' ds
      · obtain ⟨g, p, k, q, rfl, rfl, rfl, rfl⟩ := hgroup
        obtain ⟨p', rfl, hp⟩ := Tree.Alike.node_leaf h
        refine ⟨d, b, ?_, hb, .refl b⟩
        show fitting (if g = k then (g.difference? p'.toReals q.toReals).map _ else none) = _
        rw [hp.numbers]
        exact (congrArg fitting hd).trans rfl
      · rw [difference?_nodes hgroup] at hd
        split at hd
        · obtain ⟨es, -, rfl⟩ := Option.map_eq_some_iff.1 hd
          cases hsingle
        · cases hd
    | .node l cs, .leaf _, _ | .node l cs, .absent, _ =>
      rw [difference?_node_other (by simp)] at hd
      cases hd
    | .absent, .absent, _ =>
      cases hd
      cases hsingle
    | .leaf _, .absent, _ | .leaf _, .node .., _ | .absent, .leaf _, _ | .absent, .node .., _ => cases hd

end Value

/-! ## Noise -/

namespace Noise

variable {α : Type} [LinearOrder α] [ExactScalar α]

/-- The noise model with the same root, in a kind as wide. -/
def Wider : Noise α → Noise α → Prop
  | full root, full root' => root.Wider root'
  | diagonal root, diagonal root' => root.Wider root'
  | _, _ => False

theorem ofTree?_wider {v w : Value α} (h : v.Wider w) {n : Noise α} (hn : ofTree? v = some n) :
    ∃ n', ofTree? w = some n' ∧ n.Wider n' := by
  unfold ofTree? at hn
  split at hn
  next root =>
    cases hn
    obtain ⟨root', rfl, hwider⟩ := Tree.Alike.node_leaf h
    exact ⟨full root', rfl, hwider⟩
  next root =>
    cases hn
    obtain ⟨root', rfl, hwider⟩ := Tree.Alike.node_leaf h
    exact ⟨diagonal root', rfl, hwider⟩
  next => cases hn

/-- Weighing gives the same numbers. -/
theorem Wider.whiten (whole : ∀ i, Scalar.wrap α i = i) {n n' : Noise α} (h : n.Wider n') {r r' u : Block α}
    (hr : r.Wider r') (hu : n.whiten r = .ok u) : ∃ u', n'.whiten r' = .ok u' ∧ u.Wider u' := by
  match n, n', h with
  | full root, full root', h =>
    have hu := fitting_eq_ok hu
    refine ⟨u, ?_, .refl u⟩
    show fitting (root'.mulVec? r') = _
    rw [Block.mulVec?_wider h hr, hu, fitting_some]
  | diagonal root, diagonal root', h =>
    obtain ⟨_, hshape, hu⟩ := Checked.bind_eq_ok hu
    obtain ⟨u', hu', hwider⟩ := Block.mul?_wider whole h hr (fitting_eq_ok hu)
    refine ⟨u', ?_, hwider⟩
    show (require .residualShape (r'.shape = root'.shape) >>= fun _ => fitting (root'.mul? r')) = _
    rw [hr.shape, Block.Wider.shape h, hshape, Checked.ok_bind, hu', fitting_some]

end Noise

end LeastSquares
