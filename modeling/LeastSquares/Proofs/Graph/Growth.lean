import LeastSquares.Proofs.Buffer.Coordinates
import LeastSquares.Proofs.Factor.Growth
import LeastSquares.Graph.Nonlinear

/-!
# Graphs that grow

Factors are stored one by one, each at the end of the stack of its group. So every group holds the factors
with its key, stacked in the order in which they came, and there are no other groups.
-/

namespace LeastSquares

/-! ## One factor -/

section Stored

variable {C α : Type} [Scalar α] {f : FactorLiteral C α} {g : FactorStack C α}

omit [Scalar α] in
theorem Item.shape_of_block? {i : Item α} {b : Block α} (h : i.block? = some b) :
    b.shape = i.shape := by
  cases i with
  | array place b' =>
    cases h
    rfl
  | int i =>
    rw [block?] at h
    split at h
    · cases h
      rfl
    · cases h
  | bool | real =>
    cases h
    rfl
  | text => cases h

/-- A factor with its leaves as arrays has the key of the factor. -/
theorem Factor.stored?_spec (h : f.stored? = some g) : g.frame = f.frame ∧
    List.Forall₂ (fun i b => Item.block? i = some b) f.leaves g.leaves ∧
    g.leaves.map Block.shape = (GroupKey.ofItems f).shapes := by
  obtain ⟨hframe, hleaves⟩ := traverse_spec h
  refine ⟨hframe, hleaves, ?_⟩
  rw [GroupKey.ofItems, eq_comm, ← List.forall₂_eq_eq_eq, List.forall₂_map_left_iff,
    List.forall₂_map_right_iff]
  exact hleaves.imp fun _ _ hb => (Item.shape_of_block? hb).symm

variable [DecidableEq C] [FactorFamily C] {b b' : Buffer C α}

/-- What happened when a factor was appended. -/
theorem Buffer.appendFactor_eq_ok (h : b.appendFactor f = .ok b') :
    ∃ g G, f.stored? = some g ∧ b'.content = b.content ∧ b'.stack = some (.factors G) ∧
      (b.stack = none ∧ G = g.map Block.lifted Block.lifted ∨ ∃ F, b.stack = some (.factors F) ∧
        F.zip? Block.append? (g.map Block.lifted Block.lifted) = some G) := by
  unfold Buffer.appendFactor at h
  obtain ⟨g, hg, h⟩ := Checked.bind_eq_ok h
  dsimp only at h
  split at h
  next hnone =>
    cases h
    exact ⟨g, _, fitting_eq_ok hg, rfl, rfl, .inl ⟨hnone, rfl⟩⟩
  next F hF =>
    obtain ⟨_, -, h⟩ := Checked.bind_eq_ok h
    obtain ⟨G, hG, h⟩ := Checked.bind_eq_ok h
    cases h
    exact ⟨g, G, fitting_eq_ok hg, rfl, rfl, .inr ⟨F, hF, fitting_eq_ok hG⟩⟩
  next => cases h

end Stored

/-! ## All factors -/

namespace FactorGraph

variable {C α : Type} [DecidableEq C] [FactorFamily C] [Scalar α]
  {fs : List (FactorLiteral C α)} {f : FactorLiteral C α} {graph graph' : FactorGraph C α}

/-- The graph of factors stored one by one. -/
def ofFactors (fs : List (FactorLiteral C α)) : Checked (FactorGraph C α) :=
  fs.foldlM insert empty

omit [FactorFamily C] in
/-- The factors of a group, in order. -/
def members (k : GroupKey C) (fs : List (FactorLiteral C α)) : List (FactorLiteral C α) :=
  fs.filter fun f => GroupKey.ofItems f = k

omit [FactorFamily C] in
/-- The buffer holds these factors as one stack. -/
def Bucket (k : GroupKey C) (fs : List (FactorLiteral C α)) (b : Buffer C α) : Prop :=
  ∃ rows F, b.content = some (.factors k.kind) ∧ b.stack = some (.factors F) ∧
    List.Forall₂ (fun f g => f.stored? = some g) fs rows ∧ Factor.stack? rows = some F

/-- The groups of the graph are those of the factors, and hold them. -/
structure Holds (fs : List (FactorLiteral C α)) (graph : FactorGraph C α) : Prop where
  keys : ∀ key ∈ graph.buffers.keys, ∃ f ∈ fs, key = .group (.ofItems f)
  bucket : ∀ k, members k fs ≠ [] → ∃ b, graph.buffers.get? (.group k) = some b ∧
    Bucket k (members k fs) b

theorem insert_eq_ok (h : graph.insert f = .ok graph') :
    ∃ b, graph' = ⟨graph.buffers.insert (.group (.ofItems f)) b⟩ ∧
      Buffer.appendFactor (if (graph.buffers.buffer (.group (.ofItems f))).isEmpty then
        { Buffer.empty with content := some (.factors f.kind), place := .host }
      else graph.buffers.buffer (.group (.ofItems f))) f = .ok b := by
  obtain ⟨b, hb, h⟩ := Checked.bind_eq_ok h
  cases h
  exact ⟨b, rfl, hb⟩

omit [FactorFamily C] in
theorem members_append (k : GroupKey C) (fs : List (FactorLiteral C α)) (f : FactorLiteral C α) :
    members k (fs ++ [f]) = members k fs ++ if GroupKey.ofItems f = k then [f] else [] := by
  rw [members, List.filter_append, List.filter_singleton]
  by_cases hk : GroupKey.ofItems f = k <;> simp [hk, members]

omit [FactorFamily C] in
theorem key_of_mem_members {k : GroupKey C} (h : f ∈ members k fs) : GroupKey.ofItems f = k := by
  simpa [members] using (List.mem_filter.1 h).2

omit [FactorFamily C] in
theorem Bucket.isEmpty {k : GroupKey C} {ms : List (FactorLiteral C α)} {b : Buffer C α}
    (h : Bucket k ms b) : b.isEmpty = false := by
  obtain ⟨rows, F, -, hstack, -⟩ := h
  exact Buffer.isEmpty_of_stack hstack

/-- A factor is appended to those of its group. -/
theorem Bucket.append {k : GroupKey C} {ms : List (FactorLiteral C α)} {b b' : Buffer C α}
    (h : Bucket k ms b) (hmembers : ∀ e ∈ ms, GroupKey.ofItems e = k) (hf : GroupKey.ofItems f = k)
    (hb : b.appendFactor f = .ok b') : Bucket k (ms ++ [f]) b' := by
  obtain ⟨rows, F, hcontent, hstack, hrows, hF⟩ := h
  obtain ⟨g, G, hg, hcontent', hstack', ⟨hnone, -⟩ | ⟨F', hF', hzip⟩⟩ := Buffer.appendFactor_eq_ok hb
  · cases hnone.symm.trans hstack
  · obtain rfl : F' = F := by
      rw [hstack] at hF'
      exact (Stack.factors.inj (Option.some.inj hF')).symm
    refine ⟨rows ++ [g], G, hcontent'.trans hcontent, hstack', List.rel_append hrows (.cons hg .nil),
      Factor.stack?_append hF (fun e he => ?_) hzip⟩
    obtain ⟨i, hi, rfl⟩ := List.getElem_of_mem he
    have hi' : i < ms.length := hrows.length_eq ▸ hi
    have hshapes := (Factor.stored?_spec (hrows.get hi' hi)).2.2
    rw [List.get_eq_getElem] at hshapes
    rw [hshapes, (Factor.stored?_spec hg).2.2, hf]
    exact congrArg GroupKey.shapes (hmembers _ (List.getElem_mem hi'))

/-- The first factor of a group. -/
theorem bucket_singleton {b b' : Buffer C α} (hcontent : b.content = some (.factors f.kind))
    (hempty : b.stack = none) (hb : b.appendFactor f = .ok b') : Bucket (.ofItems f) [f] b' := by
  obtain ⟨g, G, hg, hcontent', hstack', ⟨-, rfl⟩ | ⟨F', hF', -⟩⟩ := Buffer.appendFactor_eq_ok hb
  · exact ⟨[g], _, hcontent'.trans hcontent, hstack', .cons hg .nil, Factor.stack?_singleton g⟩
  · cases hempty.symm.trans hF'

theorem Holds.insert (h : Holds fs graph) (hf : graph.insert f = .ok graph') :
    Holds (fs ++ [f]) graph' := by
  obtain ⟨b, rfl, hb⟩ := insert_eq_ok hf
  refine ⟨fun key hkey => ?_, fun k hk => ?_⟩
  · obtain ⟨c, hc⟩ := Table.mem_keys_iff.1 hkey
    rw [Table.get?_insert] at hc
    split at hc
    next hsame => exact ⟨f, by simp, hsame⟩
    next =>
      obtain ⟨e, he, hkey⟩ := h.keys key (Table.mem_keys_iff.2 ⟨c, hc⟩)
      exact ⟨e, by simp [he], hkey⟩
  · rw [members_append] at hk ⊢
    by_cases hsame : GroupKey.ofItems f = k
    · subst hsame
      rw [if_pos rfl]
      refine ⟨b, by rw [Table.get?_insert, if_pos rfl], ?_⟩
      rcases eq_or_ne (members (.ofItems f) fs) [] with hnil | hne
      · -- the group is new
        have hmissing : Key.group (GroupKey.ofItems f) ∉ graph.buffers.keys := by
          intro hmem
          obtain ⟨e, he, hkey⟩ := h.keys _ hmem
          have hmember : e ∈ members (.ofItems f) fs :=
            List.mem_filter.2 ⟨he, decide_eq_true (Key.group.inj hkey).symm⟩
          rw [hnil] at hmember
          cases hmember
        rw [Buffers.buffer_of_not_mem hmissing] at hb
        rw [hnil]
        exact bucket_singleton rfl rfl hb
      · obtain ⟨old, hold, hbucket⟩ := h.bucket _ hne
        rw [Buffers.buffer_of_get? hold, hbucket.isEmpty, if_neg Bool.false_ne_true] at hb
        exact hbucket.append (fun e he => key_of_mem_members he) rfl hb
    · rw [if_neg hsame, List.append_nil] at hk ⊢
      obtain ⟨c, hc, hbucket⟩ := h.bucket k hk
      have hkey : Key.group k ≠ .group (.ofItems f) := fun h => hsame (Key.group.inj h).symm
      exact ⟨c, by rw [Table.get?_insert, if_neg hkey, hc], hbucket⟩

/-- A graph of factors stored one by one holds them by groups. -/
theorem holds_of_ofFactors (h : ofFactors fs = .ok graph) : Holds fs graph := by
  induction fs using List.reverseRecOn generalizing graph with
  | nil =>
    cases h
    exact ⟨fun key hkey => absurd hkey List.not_mem_nil, fun k hk => absurd rfl hk⟩
  | append_singleton fs f ih =>
    rw [ofFactors, List.foldlM_append] at h
    obtain ⟨before, hbefore, h⟩ := Checked.bind_eq_ok h
    obtain ⟨after, hafter, h⟩ := Checked.bind_eq_ok h
    cases h
    exact (ih hbefore).insert hafter

end FactorGraph

end LeastSquares
