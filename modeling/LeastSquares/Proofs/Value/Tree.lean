import LeastSquares.Proofs.Checked
import LeastSquares.Value.Tree

/-!
# Trees by their leaves

A tree is told by its skeleton, what is left when the leaves are forgotten, and by the list of its
leaves. The operations on trees keep the skeleton and act on the leaves in order: so mapping,
traversing, refilling and combining two trees leaf by leaf are described by what they do to lists.
-/

namespace LeastSquares.Tree

variable {β γ δ : Type}

/-- The tree with nothing at its leaves. -/
def skeleton (t : Tree β) : Tree Unit := t.map fun _ => ()

mutual

theorem map_map (f : β → γ) (g : γ → δ) : (t : Tree β) → (t.map f).map g = t.map fun b => g (f b)
  | leaf _ => rfl
  | absent => rfl
  | node _ cs => congrArg (node _) (map_map_all f g cs)

theorem map_map_all (f : β → γ) (g : γ → δ) :
    (cs : List (Tree β)) → map.all g (map.all f cs) = map.all (fun b => g (f b)) cs
  | [] => rfl
  | c :: cs => by rw [map.all, map.all, map.all, map_map f g c, map_map_all f g cs]

end

mutual

theorem map_id : (t : Tree β) → t.map (fun b => b) = t
  | leaf _ => rfl
  | absent => rfl
  | node _ cs => congrArg (node _) (map_id_all cs)

theorem map_id_all : (cs : List (Tree β)) → map.all (fun b => b) cs = cs
  | [] => rfl
  | c :: cs => by rw [map.all, map_id c, map_id_all cs]

end

theorem map_all_eq (f : β → γ) (cs : List (Tree β)) : map.all f cs = cs.map (map f) := by
  induction cs with
  | nil => rfl
  | cons c cs ih => rw [map.all, ih, List.map_cons]

@[simp] theorem skeleton_map (f : β → γ) (t : Tree β) : (t.map f).skeleton = t.skeleton :=
  map_map f _ t

theorem skeleton_node (l : Label) (cs : List (Tree β)) :
    (node l cs).skeleton = node l (cs.map skeleton) :=
  congrArg (node l) (map_all_eq _ cs)

theorem leaves_all_eq (cs : List (Tree β)) : leaves.all cs = cs.flatMap leaves := by
  induction cs with
  | nil => rfl
  | cons c cs ih => rw [leaves.all, ih, List.flatMap_cons]

theorem length_leaves (t : Tree β) : t.leaves.length = t.skeleton.leaves.length := by
  rw [skeleton, leaves_map, List.length_map]

theorem length_leaves_eq {s : Tree β} {t : Tree γ} (h : s.skeleton = t.skeleton) :
    s.leaves.length = t.leaves.length := by
  rw [length_leaves s, length_leaves t, h]

theorem length_leaves_all {cs : List (Tree β)} {ds : List (Tree γ)}
    (h : cs.map skeleton = ds.map skeleton) :
    (leaves.all cs).length = (leaves.all ds).length :=
  length_leaves_eq (s := node .list cs) (t := node .list ds) (by rw [skeleton_node, h, skeleton_node])

/-! ## Equality -/

mutual

/-- Trees of one skeleton that have the same leaves are the same. -/
theorem eq_of_leaves : (s t : Tree β) → s.skeleton = t.skeleton → s.leaves = t.leaves → s = t
  | leaf b, t => by
    cases t with
    | leaf c =>
      intro _ h
      obtain rfl : b = c := by simpa [leaves] using h
      rfl
    | absent | node _ _ =>
      intro h
      cases h
  | absent, t => by
    cases t with
    | absent => exact fun _ _ => rfl
    | leaf _ | node _ _ =>
      intro h
      cases h
  | node l cs, t => by
    cases t with
    | leaf _ | absent =>
      intro h
      cases h
    | node l' ds =>
      intro h hleaves
      rw [skeleton_node, skeleton_node] at h
      injection h with hl hskeleton
      rw [hl, eq_of_leaves_all cs ds hskeleton hleaves]

theorem eq_of_leaves_all : (cs ds : List (Tree β)) → cs.map skeleton = ds.map skeleton →
    leaves.all cs = leaves.all ds → cs = ds
  | [], ds => by
    intro h _
    simpa using h.symm
  | c :: cs, [] => by
    intro h
    cases h
  | c :: cs, d :: ds => by
    intro h hleaves
    rw [List.map_cons, List.map_cons, List.cons.injEq] at h
    rw [leaves.all, leaves.all] at hleaves
    obtain ⟨hc, hcs⟩ := List.append_inj hleaves (length_leaves_eq h.1)
    rw [eq_of_leaves c d h.1 hc, eq_of_leaves_all cs ds h.2 hcs]

end

mutual

/-- The walk through a tree tells where it ends, and which tree it was. -/
theorem skeleton_of_outline : (s : Tree β) → (t : Tree γ) → {xs ys : List Mark} →
    s.outline ++ xs = t.outline ++ ys → s.skeleton = t.skeleton ∧ xs = ys
  | leaf _, t => by
    intro h
    cases t with
    | leaf _ => exact ⟨rfl, (List.cons.inj h).2⟩
    | absent | node _ _ => cases (List.cons.inj h).1
  | absent, t => by
    intro h
    cases t with
    | absent => exact ⟨rfl, (List.cons.inj h).2⟩
    | leaf _ | node _ _ => cases (List.cons.inj h).1
  | node l cs, t => by
    intro h
    cases t with
    | leaf _ | absent => cases (List.cons.inj h).1
    | node l' ds =>
      obtain ⟨hmark, hrest⟩ := List.cons.inj h
      injection hmark with hl hlength
      obtain ⟨hskeleton, hxs⟩ := skeleton_of_outline_all cs ds hlength hrest
      exact ⟨by rw [skeleton_node, skeleton_node, hl, hskeleton], hxs⟩

theorem skeleton_of_outline_all : (cs : List (Tree β)) → (ds : List (Tree γ)) →
    {xs ys : List Mark} → cs.length = ds.length → outline.all cs ++ xs = outline.all ds ++ ys →
    cs.map skeleton = ds.map skeleton ∧ xs = ys
  | [], [] => fun _ h => ⟨rfl, h⟩
  | [], _ :: _ => fun hlength => nomatch hlength
  | _ :: _, [] => fun hlength => nomatch hlength
  | c :: cs, d :: ds => by
    intro hlength h
    rw [outline.all, outline.all, List.append_assoc, List.append_assoc] at h
    obtain ⟨hc, hrest⟩ := skeleton_of_outline c d h
    obtain ⟨hcs, hxs⟩ := skeleton_of_outline_all cs ds (Nat.succ.inj hlength) hrest
    exact ⟨by rw [List.map_cons, List.map_cons, hc, hcs], hxs⟩

end

mutual

@[simp] theorem outline_map (f : β → γ) : (t : Tree β) → (t.map f).outline = t.outline
  | leaf _ | absent => rfl
  | node l cs => by
    show Mark.node l (map.all f cs).length :: outline.all (map.all f cs) = _
    rw [outline_map_all f cs, map_all_eq, List.length_map]
    rfl

theorem outline_map_all (f : β → γ) :
    (cs : List (Tree β)) → outline.all (map.all f cs) = outline.all cs
  | [] => rfl
  | c :: cs => congrArg₂ _ (outline_map f c) (outline_map_all f cs)

end

/-- The walk through a tree is told by its skeleton. -/
theorem outline_eq_of_skeleton {s : Tree β} {t : Tree γ} (h : s.skeleton = t.skeleton) :
    s.outline = t.outline := by
  rw [← outline_map (fun _ => ()) s, ← outline_map (fun _ => ()) t]
  exact congrArg outline h

theorem skeleton_eq_of_outline {s : Tree β} {t : Tree γ} (h : s.outline = t.outline) :
    s.skeleton = t.skeleton :=
  (@skeleton_of_outline _ _ s t [] [] (by rw [h])).1

theorem map_eq_map_iff {f : β → δ} {g : γ → δ} {s : Tree β} {t : Tree γ} :
    s.map f = t.map g ↔ s.skeleton = t.skeleton ∧ s.leaves.map f = t.leaves.map g := by
  constructor
  · intro h
    refine ⟨?_, by rw [← leaves_map, h, leaves_map]⟩
    rw [← skeleton_map f s, h, skeleton_map]
  · rintro ⟨hskeleton, hleaves⟩
    refine eq_of_leaves _ _ (by simpa using hskeleton) ?_
    rw [leaves_map, leaves_map, hleaves]

/-! ## Traversing -/

mutual

theorem traverse_spec {f : β → Option γ} : (t : Tree β) → {u : Tree γ} → t.traverse f = some u →
    u.skeleton = t.skeleton ∧ List.Forall₂ (fun b c => f b = some c) t.leaves u.leaves
  | leaf b, u => by
    intro h
    obtain ⟨c, hc, rfl⟩ : ∃ c, f b = some c ∧ leaf c = u := by
      simpa [traverse, Option.bind_eq_some_iff] using h
    exact ⟨rfl, .cons hc .nil⟩
  | absent, u => by
    intro h
    obtain rfl : absent = u := by simpa [traverse] using h
    exact ⟨rfl, .nil⟩
  | node l cs, u => by
    intro h
    obtain ⟨us, hus, rfl⟩ : ∃ us, traverse.all f cs = some us ∧ node l us = u := by
      simpa [traverse, Option.bind_eq_some_iff] using h
    obtain ⟨hskeleton, hleaves⟩ := traverse_all_spec cs hus
    exact ⟨by rw [skeleton_node, skeleton_node, hskeleton], hleaves⟩

theorem traverse_all_spec {f : β → Option γ} : (cs : List (Tree β)) → {us : List (Tree γ)} →
    traverse.all f cs = some us → us.map skeleton = cs.map skeleton ∧
      List.Forall₂ (fun b c => f b = some c) (leaves.all cs) (leaves.all us)
  | [], us => by
    intro h
    obtain rfl : [] = us := by simpa [traverse.all] using h
    exact ⟨rfl, .nil⟩
  | c :: cs, us => by
    intro h
    obtain ⟨v, hv, vs, hvs, rfl⟩ : ∃ v, c.traverse f = some v ∧
        ∃ vs, traverse.all f cs = some vs ∧ v :: vs = us := by
      simpa [traverse.all, Option.bind_eq_some_iff] using h
    obtain ⟨hc, hcleaves⟩ := traverse_spec c hv
    obtain ⟨hcs, hcsleaves⟩ := traverse_all_spec cs hvs
    exact ⟨by rw [List.map_cons, List.map_cons, hc, hcs], List.rel_append hcleaves hcsleaves⟩

end

mutual

theorem traverse_ok {f : β → Option γ} : (t : Tree β) → (∀ b ∈ t.leaves, ∃ c, f b = some c) →
    ∃ u, t.traverse f = some u
  | leaf b, h => by
    obtain ⟨c, hc⟩ := h b (by simp [leaves])
    exact ⟨leaf c, by simp [traverse, hc]⟩
  | absent, _ => ⟨absent, rfl⟩
  | node l cs, h => by
    obtain ⟨us, hus⟩ := traverse_all_ok cs h
    exact ⟨node l us, by simp [traverse, hus]⟩

theorem traverse_all_ok {f : β → Option γ} : (cs : List (Tree β)) →
    (∀ b ∈ leaves.all cs, ∃ c, f b = some c) → ∃ us, traverse.all f cs = some us
  | [], _ => ⟨[], rfl⟩
  | c :: cs, h => by
    rw [leaves.all] at h
    obtain ⟨u, hu⟩ := traverse_ok c fun b hb => h b (by simp [hb])
    obtain ⟨us, hus⟩ := traverse_all_ok cs fun b hb => h b (by simp [hb])
    exact ⟨u :: us, by simp [traverse.all, hu, hus]⟩

end

mutual

theorem traverse_congr {f g : β → Option γ} : (t : Tree β) → (∀ b ∈ t.leaves, f b = g b) →
    t.traverse f = t.traverse g
  | leaf b, h => by rw [traverse, traverse, h b (by simp [leaves])]
  | absent, _ => rfl
  | node l cs, h => by rw [traverse, traverse, traverse_all_congr cs h]

theorem traverse_all_congr {f g : β → Option γ} : (cs : List (Tree β)) →
    (∀ b ∈ leaves.all cs, f b = g b) → traverse.all f cs = traverse.all g cs
  | [], _ => rfl
  | c :: cs, h => by
    rw [leaves.all] at h
    rw [traverse.all, traverse.all, traverse_congr c fun b hb => h b (by simp [hb]),
      traverse_all_congr cs fun b hb => h b (by simp [hb])]

end

mutual

theorem traverse_fitting (f : β → Option γ) : (t : Tree β) →
    t.traverse (fun b => fitting (f b)) = fitting (t.traverse f)
  | leaf b => by cases h : f b <;> simp [traverse, h, fitting]
  | absent => rfl
  | node l cs => by
    simp only [traverse, traverse_all_fitting f cs]
    cases traverse.all f cs <;> rfl

theorem traverse_all_fitting (f : β → Option γ) : (cs : List (Tree β)) →
    traverse.all (fun b => fitting (f b)) cs = fitting (traverse.all f cs)
  | [] => rfl
  | c :: cs => by
    simp only [traverse.all, traverse_fitting f c, traverse_all_fitting f cs]
    cases c.traverse f <;> cases traverse.all f cs <;> rfl

end

mutual

/-- A tree traversed by a function that succeeds on its leaves. -/
theorem traverse_eq_map {f : β → Checked γ} {g : β → γ} :
    (t : Tree β) → (∀ b ∈ t.leaves, f b = .ok (g b)) → t.traverse f = .ok (t.map g)
  | leaf b, h => by simp [traverse, map, h b (by simp [leaves])]
  | absent, _ => rfl
  | node l cs, h => by
    rw [traverse, traverse_all_eq_map cs h]
    rfl

theorem traverse_all_eq_map {f : β → Checked γ} {g : β → γ} :
    (cs : List (Tree β)) → (∀ b ∈ leaves.all cs, f b = .ok (g b)) →
      traverse.all f cs = .ok (map.all g cs)
  | [], _ => rfl
  | c :: cs, h => by
    rw [leaves.all] at h
    rw [traverse.all, traverse_eq_map c fun b hb => h b (by simp [hb]),
      traverse_all_eq_map cs fun b hb => h b (by simp [hb])]
    rfl

end

/-! ## Combining -/

mutual

theorem zip?_spec {f : β → γ → Option δ} : (s : Tree β) → {t : Tree γ} → {u : Tree δ} →
    s.zip? f t = some u → t.skeleton = s.skeleton ∧ u.skeleton = s.skeleton ∧
      List.Forall₂ (fun p d => f p.1 p.2 = some d) (s.leaves.zip t.leaves) u.leaves
  | leaf b, t, u => by
    cases t with
    | leaf c =>
      intro h
      obtain ⟨d, hd, rfl⟩ : ∃ d, f b c = some d ∧ leaf d = u := by simpa [zip?] using h
      exact ⟨rfl, rfl, .cons hd .nil⟩
    | absent | node _ _ =>
      intro h
      simp [zip?] at h
  | absent, t, u => by
    cases t with
    | absent =>
      intro h
      obtain rfl : absent = u := by simpa [zip?] using h
      exact ⟨rfl, rfl, .nil⟩
    | leaf _ | node _ _ =>
      intro h
      simp [zip?] at h
  | node l cs, t, u => by
    cases t with
    | leaf _ | absent =>
      intro h
      simp [zip?] at h
    | node l' ds =>
      intro h
      obtain ⟨rfl, us, hus, rfl⟩ : l = l' ∧ ∃ us, zip?.all f cs ds = some us ∧ node l us = u := by
        simpa [zip?] using h
      obtain ⟨hds, hskeleton, hleaves⟩ := zip?_all_spec cs hus
      simp only [skeleton_node, hds, hskeleton]
      exact ⟨trivial, trivial, hleaves⟩

theorem zip?_all_spec {f : β → γ → Option δ} : (cs : List (Tree β)) → {ds : List (Tree γ)} →
    {us : List (Tree δ)} → zip?.all f cs ds = some us →
    ds.map skeleton = cs.map skeleton ∧ us.map skeleton = cs.map skeleton ∧
      List.Forall₂ (fun p d => f p.1 p.2 = some d) ((leaves.all cs).zip (leaves.all ds))
        (leaves.all us)
  | [], ds, us => by
    cases ds with
    | nil =>
      intro h
      obtain rfl : [] = us := by simpa [zip?.all] using h
      exact ⟨rfl, rfl, .nil⟩
    | cons d ds =>
      intro h
      simp [zip?.all] at h
  | c :: cs, ds, us => by
    cases ds with
    | nil =>
      intro h
      simp [zip?.all] at h
    | cons d ds =>
      intro h
      obtain ⟨v, hv, vs, hvs, rfl⟩ : ∃ v, c.zip? f d = some v ∧
          ∃ vs, zip?.all f cs ds = some vs ∧ v :: vs = us := by
        simpa [zip?.all, Option.bind_eq_some_iff] using h
      obtain ⟨hd, hc, hcleaves⟩ := zip?_spec c hv
      obtain ⟨hds, hcs, hcsleaves⟩ := zip?_all_spec cs hvs
      simp only [List.map_cons, hd, hc, hds, hcs, leaves.all,
        List.zip_append (length_leaves_eq hd.symm)]
      exact ⟨trivial, trivial, List.rel_append hcleaves hcsleaves⟩

end

mutual

theorem zip?_ok {f : β → γ → Option δ} : (s : Tree β) → {t : Tree γ} → t.skeleton = s.skeleton →
    (∀ p ∈ s.leaves.zip t.leaves, ∃ d, f p.1 p.2 = some d) → ∃ u, s.zip? f t = some u
  | leaf b, t => by
    cases t with
    | leaf c =>
      intro _ h
      obtain ⟨d, hd⟩ := h (b, c) (by simp [leaves])
      exact ⟨leaf d, by simp [zip?, hd]⟩
    | absent | node _ _ =>
      intro h
      cases h
  | absent, t => by
    cases t with
    | absent => exact fun _ _ => ⟨absent, rfl⟩
    | leaf _ | node _ _ =>
      intro h
      cases h
  | node l cs, t => by
    cases t with
    | leaf _ | absent =>
      intro h
      cases h
    | node l' ds =>
      intro hskeleton h
      rw [skeleton_node, skeleton_node] at hskeleton
      injection hskeleton with hl hskeleton
      obtain ⟨us, hus⟩ := zip?_all_ok cs hskeleton h
      exact ⟨node l us, by simp [zip?, hl, hus]⟩

theorem zip?_all_ok {f : β → γ → Option δ} : (cs : List (Tree β)) → {ds : List (Tree γ)} →
    ds.map skeleton = cs.map skeleton →
    (∀ p ∈ (leaves.all cs).zip (leaves.all ds), ∃ d, f p.1 p.2 = some d) →
    ∃ us, zip?.all f cs ds = some us
  | [], ds => by
    intro hskeleton _
    obtain rfl : ds = [] := by simpa using hskeleton
    exact ⟨[], rfl⟩
  | c :: cs, ds => by
    cases ds with
    | nil =>
      intro h
      cases h
    | cons d ds =>
      intro hskeleton h
      rw [List.map_cons, List.map_cons, List.cons.injEq] at hskeleton
      simp only [leaves.all, List.zip_append (length_leaves_eq hskeleton.1.symm)] at h
      obtain ⟨u, hu⟩ := zip?_ok c hskeleton.1 fun p hp => h p (List.mem_append_left _ hp)
      obtain ⟨us, hus⟩ := zip?_all_ok cs hskeleton.2 fun p hp => h p (List.mem_append_right _ hp)
      exact ⟨u :: us, by simp [zip?.all, hu, hus]⟩

end

/-! ## Refilling -/

mutual

/-- A tree takes as many leaves of a list as it has. -/
theorem refill?_ok : (t : Tree β) → (xs : List γ) → t.leaves.length ≤ xs.length →
    ∃ u rest, t.refill? xs = some (u, rest) ∧ u.skeleton = t.skeleton ∧ u.leaves ++ rest = xs
  | leaf b, [] => by
    intro h
    simp [leaves] at h
  | leaf b, x :: xs => fun _ => ⟨leaf x, xs, rfl, rfl, rfl⟩
  | absent, xs => fun _ => ⟨absent, xs, rfl, rfl, rfl⟩
  | node l cs, xs => by
    intro h
    obtain ⟨us, rest, hus, hskeleton, hleaves⟩ := refill?_all_ok cs xs h
    refine ⟨node l us, rest, ?_, by rw [skeleton_node, skeleton_node, hskeleton], hleaves⟩
    rw [refill?, hus]
    rfl

theorem refill?_all_ok : (cs : List (Tree β)) → (xs : List γ) →
    (leaves.all cs).length ≤ xs.length → ∃ us rest, refill?.all cs xs = some (us, rest) ∧
      us.map skeleton = cs.map skeleton ∧ leaves.all us ++ rest = xs
  | [], xs => fun _ => ⟨[], xs, rfl, rfl, rfl⟩
  | c :: cs, xs => by
    intro h
    rw [leaves.all, List.length_append] at h
    obtain ⟨u, rest, hu, hskeleton, hleaves⟩ := refill?_ok c xs (by omega)
    have hrest : (leaves.all cs).length ≤ rest.length := by
      rw [← hleaves, List.length_append, length_leaves_eq hskeleton] at h
      omega
    obtain ⟨us, rest', hus, hskeletons, hleaves'⟩ := refill?_all_ok cs rest hrest
    refine ⟨u :: us, rest', ?_, by rw [List.map_cons, List.map_cons, hskeleton, hskeletons], ?_⟩
    · rw [refill?.all, hu, Option.bind_eq_bind, Option.bind_some]
      dsimp only
      rw [hus]
      rfl
    · rw [leaves.all, List.append_assoc, hleaves', hleaves]

end

/-! ## Flat nodes -/

@[simp] theorem map_all_map_leaf (f : β → γ) (bs : List β) :
    map.all f (bs.map .leaf) = bs.map fun b => .leaf (f b) := by
  rw [map_all_eq, List.map_map]
  rfl

theorem map_node_map_leaf (f : β → γ) (l : Label) (bs : List β) :
    (node l (bs.map .leaf)).map f = node l (bs.map fun b => .leaf (f b)) :=
  congrArg (node l) (map_all_map_leaf f bs)

theorem leaves_node_map_leaf (l : Label) (bs : List β) : (node l (bs.map .leaf)).leaves = bs := by
  show leaves.all (bs.map .leaf) = bs
  rw [leaves_all_eq, List.flatMap_map]
  simp [leaves]

theorem eq_leaf_of_skeleton {t : Tree β} (h : t.skeleton = .leaf ()) : ∃ b, t = .leaf b := by
  cases t with
  | leaf b => exact ⟨b, rfl⟩
  | absent => cases h
  | node => cases h

theorem eq_leaves_of_skeleton {cs : List (Tree β)} {bs : List γ}
    (h : cs.map skeleton = bs.map fun _ => .leaf ()) : ∃ us : List β, cs = us.map .leaf := by
  induction cs generalizing bs with
  | nil => exact ⟨[], rfl⟩
  | cons c cs ih =>
    cases bs with
    | nil => cases h
    | cons b bs =>
      rw [List.map_cons, List.map_cons, List.cons.injEq] at h
      obtain ⟨u, rfl⟩ := eq_leaf_of_skeleton h.1
      obtain ⟨us, rfl⟩ := ih h.2
      exact ⟨u :: us, rfl⟩

/-- A node that has the skeleton of a flat one is flat. -/
theorem eq_flat_of_skeleton {t : Tree β} {l : Label} {bs : List γ}
    (h : t.skeleton = .node l (bs.map fun _ => .leaf ())) :
    ∃ us : List β, t = .node l (us.map .leaf) ∧ us.length = bs.length := by
  cases t with
  | leaf => cases h
  | absent => cases h
  | node l' cs =>
    rw [skeleton_node] at h
    injection h with hl hcs
    obtain ⟨us, rfl⟩ := eq_leaves_of_skeleton hcs
    exact ⟨us, by rw [hl], by simpa using congrArg List.length hcs⟩

/-- A tree takes all of a list that is as long as its leaves. -/
theorem refill?_of_length {t : Tree β} {xs : List γ} (h : xs.length = t.leaves.length) :
    ∃ u, t.refill? xs = some (u, []) ∧ u.skeleton = t.skeleton ∧ u.leaves = xs := by
  obtain ⟨u, rest, hu, hskeleton, hleaves⟩ := refill?_ok t xs h.ge
  have hrest : rest = [] := by
    have hlength := congrArg List.length hleaves
    rw [List.length_append, length_leaves_eq hskeleton] at hlength
    exact List.length_eq_zero_iff.1 (by omega)
  subst hrest
  exact ⟨u, hu, hskeleton, by rwa [List.append_nil] at hleaves⟩

end LeastSquares.Tree
