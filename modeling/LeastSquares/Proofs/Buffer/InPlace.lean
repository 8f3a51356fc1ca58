import LeastSquares.Proofs.Buffer.Arithmetic
import LeastSquares.Proofs.Buffer.Contents
import LeastSquares.Catalogue

/-!
# Updates in place

An update works through the buffers of its operand and replaces ours under the same keys. What it leaves is
told by how far it came: all of the way, and then it is the sum or difference of both collections, or up to
the first buffers that do not go together.
-/

namespace LeastSquares

namespace Table

variable {K V : Type} [DecidableEq K]

/-- A table is told by its keys, in order, and what is under them. -/
theorem eq_of_get? {t u : Table K V} (hkeys : t.keys = u.keys)
    (h : ∀ key ∈ t.keys, t.get? key = u.get? key) : t = u := by
  have hlength : t.entries.length = u.entries.length := by
    simpa [keys] using congrArg List.length hkeys
  refine eq_of_entries (List.ext_getElem hlength fun i hi hi' => ?_)
  have hkey : t.entries[i].1 = u.entries[i].1 := by
    have hi₁ : i < t.keys.length := by simpa [keys] using hi
    have hi₂ : i < u.keys.length := by simpa [keys] using hi'
    have hget : t.keys[i] = u.keys[i] := by simp only [hkeys]
    simpa [keys] using hget
  have ht : t.get? t.entries[i].1 = some t.entries[i].2 := get?_eq_some_iff.2 (List.getElem_mem hi)
  have hu : u.get? u.entries[i].1 = some u.entries[i].2 := get?_eq_some_iff.2 (List.getElem_mem hi')
  have hmem : t.entries[i].1 ∈ t.keys := List.mem_map_of_mem (List.getElem_mem hi)
  refine Prod.ext hkey (Option.some.inj ?_)
  rw [← ht, h _ hmem, hkey, hu]

/-- A table filled key by key. -/
theorem foldlM_insert {f : K → Checked V} (keys : List K) (out : Table K V) {u : Table K V}
    (fresh : (out.keys ++ keys).Nodup)
    (h : keys.foldlM (fun out key => do return out.insert key (← f key)) out = .ok u) :
    u.keys = out.keys ++ keys ∧ (∀ key ∈ keys, ∃ v, f key = .ok v ∧ u.get? key = some v) ∧
      ∀ key ∉ keys, u.get? key = out.get? key := by
  induction keys generalizing out with
  | nil =>
    cases h
    simp
  | cons key keys ih =>
    rw [List.foldlM_cons] at h
    obtain ⟨next, hnext, h⟩ := Checked.bind_eq_ok h
    obtain ⟨v, hv, hinsert⟩ := Checked.bind_eq_ok hnext
    cases hinsert
    obtain ⟨hout, hkeys, hdisjoint⟩ := List.nodup_append.1 fresh
    have hnew : key ∉ out.keys := fun hmem => hdisjoint _ hmem _ (by simp) rfl
    have hkeysNext : (out.insert key v).keys = out.keys ++ [key] := keys_insert_of_not_mem hnew
    obtain ⟨hu, hin, hothers⟩ := ih _ (by simpa [hkeysNext] using fresh) h
    refine ⟨by simp [hu, hkeysNext], fun k hk => ?_, fun k hk => ?_⟩
    · rcases List.mem_cons.1 hk with rfl | hk
      · refine ⟨v, hv, ?_⟩
        rw [hothers k (List.nodup_cons.1 hkeys).1, get?_insert, if_pos rfl]
      · exact hin k hk
    · rw [List.mem_cons, not_or] at hk
      rw [hothers k hk.2, get?_insert, if_neg hk.1]

end Table

variable {C α : Type} [DecidableEq C]

namespace Buffers

variable {op : Buffer C α → Buffer C α → Checked (Buffer C α)} {t u : Buffers C α}
  {done : List (Key C × Buffer C α)}

/-- Our buffer under the key of another replaced by an image of both. -/
def merge (op : Buffer C α → Buffer C α → Checked (Buffer C α)) (e : Key C × Buffer C α)
    (t : Buffers C α) : Checked (Buffers C α) := do return t.insert e.1 (← op (t.buffer e.1) e.2)

theorem merge_eq_error {e : Key C × Buffer C α} {f : Failure} (h : merge op e t = .error f) :
    op (t.buffer e.1) e.2 = .error f := by
  rw [merge] at h
  cases hop : op (t.buffer e.1) e.2 with
  | ok c =>
    rw [hop] at h
    cases h
  | error f' =>
    rw [hop] at h
    exact congrArg _ (Except.error.inj h)

/-- How far an update came. Under the keys worked off stands what the operation makes of both buffers, with
the new keys at the end; all else is as it was. -/
structure Updated (op : Buffer C α → Buffer C α → Checked (Buffer C α)) (t : Buffers C α)
    (done : List (Key C × Buffer C α)) (u : Buffers C α) : Prop where
  keys : u.keys = t.keys ++ (done.map Prod.fst).filter fun key => !t.contains key
  merged : ∀ e ∈ done, ∃ c, op (t.buffer e.1) e.2 = .ok c ∧ u.get? e.1 = some c
  kept : ∀ key, key ∉ done.map Prod.fst → u.get? key = t.get? key

theorem updated_start (t : Buffers C α) : Updated op t [] t := ⟨by simp, by simp, fun _ _ => rfl⟩

theorem buffer_eq_of_get? {key : Key C} (h : u.get? key = t.get? key) :
    u.buffer key = t.buffer key := by
  rw [buffer, buffer, h]

theorem Updated.step (h : Updated op t done u) {key : Key C} {theirs c : Buffer C α}
    (hkey : key ∉ done.map Prod.fst) (hc : op (u.buffer key) theirs = .ok c) :
    Updated op t (done ++ [(key, theirs)]) (u.insert key c) where
  keys := by
    have hmem : key ∈ u.keys ↔ key ∈ t.keys := by
      rw [Table.mem_keys_iff, Table.mem_keys_iff, h.kept key hkey]
    by_cases hold : key ∈ t.keys
    · rw [Table.keys_insert_of_mem (hmem.2 hold), h.keys]
      simp [Table.contains, hold]
    · rw [Table.keys_insert_of_not_mem (mt hmem.1 hold), h.keys]
      simp [Table.contains, hold]
  merged e he := by
    rw [List.mem_append, List.mem_singleton] at he
    rw [Table.get?_insert]
    rcases he with he | rfl
    · have hmem : e.1 ∈ done.map Prod.fst := List.mem_map_of_mem he
      have hne : e.1 ≠ key := fun heq => hkey (heq ▸ hmem)
      rw [if_neg hne]
      exact h.merged e he
    · rw [if_pos rfl, ← buffer_eq_of_get? (h.kept key hkey)]
      exact ⟨c, hc, rfl⟩
  kept k hk := by
    rw [List.map_append, List.mem_append, not_or] at hk
    rw [Table.get?_insert, if_neg (by simpa using hk.2), h.kept k hk.1]

/-- An update comes to the end, or to the first buffer of the operand that does not go with ours. -/
theorem update_cases (op : Buffer C α → Buffer C α → Checked (Buffer C α)) (t : Buffers C α) (entries : List (Key C × Buffer C α))
    (distinct : (entries.map Prod.fst).Nodup) :
    (∃ u, update op entries t = .ok () u ∧ Updated op t entries u) ∨
      ∃ done key theirs rest e u, entries = done ++ (key, theirs) :: rest ∧
        update op entries t = .error e u ∧ Updated op t done u ∧
        op (t.buffer key) theirs = .error e := by
  have hnew : ∀ {done key theirs rest}, entries = done ++ (key, theirs) :: rest →
      key ∉ done.map Prod.fst := by
    rintro done key theirs rest rfl hmem
    rw [List.map_append, List.nodup_append] at distinct
    exact distinct.2.2 _ hmem _ (by simp) rfl
  have hok : ∀ {e : Key C × Buffer C α} {s u : Buffers C α}, merge op e s = .ok u →
      ∀ rest, update op (e :: rest) s = update op rest u := by
    intro e s u h rest
    obtain ⟨c, hc, hinsert⟩ := Checked.bind_eq_ok h
    cases hinsert
    exact Vectors.update_cons hc rest
  have herror : ∀ {e : Key C × Buffer C α} {s : Buffers C α} {f}, merge op e s = .error f →
      ∀ rest, update op (e :: rest) s = .error f s := by
    intro e s f h rest
    rw [update, Edit.get_bind]
    exact Edit.bind_error (Edit.lift_error (merge_eq_error h) s) _
  have hnext : ∀ done e rest s u, entries = done ++ e :: rest → Updated op t done s →
      merge op e s = .ok u → Updated op t (done ++ [e]) u := by
    intro done e rest s u hentries hP h
    obtain ⟨c, hc, hinsert⟩ := Checked.bind_eq_ok h
    cases hinsert
    exact hP.step (hnew hentries) hc
  rcases Edit.along_cases (fun _ => rfl) hok herror (updated_start t) entries hnext with
    hend | ⟨done, ⟨key, theirs⟩, rest, e, u, hentries, hrun, hP, hstep⟩
  · exact .inl hend
  · refine .inr ⟨done, key, theirs, rest, e, u, hentries, hrun, hP, ?_⟩
    rw [← buffer_eq_of_get? (hP.kept key (hnew hentries))]
    exact merge_eq_error hstep

/-! ## The operand itself -/

/-- An update whose operand is the object that changes: a buffer is read when its turn comes. -/
def updateSelf (op : Buffer C α → Buffer C α → Checked (Buffer C α)) :
    List (Key C) → Edit (Buffers C α) Unit
  | [] => pure ()
  | key :: rest => do
    let b := (← get).buffer key
    let merged ← op b b
    modify (·.insert key merged)
    updateSelf op rest

/-- Each buffer is read before it is replaced, so the object might as well have been copied first. -/
theorem updateSelf_eq (t : Buffers C α) :
    updateSelf op t.keys t = update op t.entries t := by
  have go : ∀ (rest : List (Key C × Buffer C α)) (u : Buffers C α),
      (rest.map Prod.fst).Nodup → (∀ e ∈ rest, u.buffer e.1 = e.2) →
      updateSelf op (rest.map Prod.fst) u = update op rest u := by
    intro rest
    induction rest with
    | nil => exact fun _ _ _ => rfl
    | cons e rest ih =>
      intro u hnodup hread
      obtain ⟨key, theirs⟩ := e
      rw [List.map_cons, List.nodup_cons] at hnodup
      have htheirs : u.buffer key = theirs := hread (key, theirs) (by simp)
      have hrest : ∀ c, ∀ e ∈ rest, Buffers.buffer (u.insert key c) e.1 = e.2 := by
        intro c e he
        have hmem : e.1 ∈ rest.map Prod.fst := List.mem_map_of_mem he
        have hne : e.1 ≠ key := fun h => hnodup.1 (h ▸ hmem)
        rw [buffer_insert, if_neg hne]
        exact hread e (by simp [he])
      rw [List.map_cons, updateSelf, update, Edit.get_bind, Edit.get_bind]
      dsimp only
      rw [htheirs]
      cases hop : op theirs theirs with
      | ok c =>
        rw [Edit.lift_bind rfl, Edit.lift_bind rfl]
        exact ih (u.insert key c) hnodup.2 (hrest c)
      | error e => rfl
  exact go t.entries t t.distinct fun e he => buffer_of_get? (Table.get?_eq_some_iff.2 he)

end Buffers

/-! ## Beside the sum of both -/

namespace Vectors

variable {op : Buffer C α → Buffer C α → Checked (Buffer C α)} {a b s : Vectors C α}

theorem nodup_unionKeys (a b : Vectors C α) : (a.unionKeys b).Nodup := by
  refine List.nodup_append.2 ⟨a.buffers.distinct, b.buffers.distinct.filter _, ?_⟩
  rintro k hk _ hk' rfl
  simp [Table.contains_iff.2 hk] at hk'

/-- Both combined under each key. -/
theorem zipWith_eq_ok (h : zipWith op a b = .ok s) : s.buffers.keys = a.unionKeys b ∧
    ∀ key ∈ a.unionKeys b, ∃ c, op (a.buffer key) (b.buffer key) = .ok c ∧
      s.buffers.get? key = some c := by
  obtain ⟨t, ht, hs⟩ := Checked.bind_eq_ok h
  cases hs
  obtain ⟨hkeys, hin, -⟩ := Table.foldlM_insert (a.unionKeys b) .empty (nodup_unionKeys a b) ht
  exact ⟨hkeys, hin⟩

/-- Where both can be combined under each key, an update in place leaves the same under the keys of the
operand, and our buffers under the others. -/
theorem updateWith_of_zipWith (h : zipWith op a b = .ok s) : ∃ w, updateWith op b a = .ok () w ∧
    w.buffers.keys = a.unionKeys b ∧ (∀ key ∈ b.buffers.keys, w.buffers.get? key = s.buffers.get? key) ∧
    ∀ key, key ∉ b.buffers.keys → w.buffers.get? key = a.buffers.get? key := by
  obtain ⟨hkeys, hin⟩ := zipWith_eq_ok h
  have hentry : ∀ e ∈ b.buffers.entries, ∃ c, op (a.buffers.buffer e.1) e.2 = .ok c ∧
      s.buffers.get? e.1 = some c := by
    intro e he
    have hread : b.buffer e.1 = e.2 := Buffers.buffer_of_get? (Table.get?_eq_some_iff.2 he)
    have hmem : e.1 ∈ a.unionKeys b := mem_unionKeys.2 (.inr (List.mem_map_of_mem he))
    have hone := hin e.1 hmem
    rwa [hread] at hone
  rcases Buffers.update_cases op a.buffers b.buffers.entries b.buffers.distinct with
    ⟨u, hu, hupdated⟩ | ⟨done, key, theirs, rest, e, u, hentries, -, -, herror⟩
  · refine ⟨⟨u⟩, by rw [updateWith, hu], hupdated.keys, fun key hkey => ?_, hupdated.kept⟩
    obtain ⟨theirs, htheirs⟩ := Table.mem_keys_iff.1 hkey
    have hmem := Table.get?_eq_some_iff.1 htheirs
    obtain ⟨c, hc, hget⟩ := hentry _ hmem
    obtain ⟨c', hc', hget'⟩ := hupdated.merged _ hmem
    obtain rfl : c' = c := Except.ok.inj (hc'.symm.trans hc)
    exact hget'.trans hget.symm
  · obtain ⟨c, hc, -⟩ := hentry (key, theirs) (by simp [hentries])
    cases herror.symm.trans hc

variable [FactorFamily C] [Scalar α]

/-- The vectors with a fresh empty buffer for each empty one under a key that others lack. -/
def freshened (w b : Vectors C α) : Vectors C α :=
  ⟨w.buffers.map fun key c => if c.isEmpty && !b.buffers.contains key then .empty else c⟩

/-- Adding in place leaves the sum. But an empty buffer of ours that nothing is added to stays, where the
sum has a fresh one. -/
theorem increase_of_add (h : a.add b = .ok s) : ∃ w, increase b a = .ok () w ∧
    w.buffers.keys = a.unionKeys b ∧ s = w.freshened b := by
  obtain ⟨hkeys, hin⟩ := zipWith_eq_ok h
  obtain ⟨w, hw, hwkeys, hours, hothers⟩ := updateWith_of_zipWith h
  refine ⟨w, hw, hwkeys, congrArg mk (Table.eq_of_get? ?_ fun key hkey => ?_)⟩
  · rw [Table.keys_map_eq, hkeys, hwkeys]
  · rw [Table.get?_map]
    by_cases hb : key ∈ b.buffers.keys
    · have hid : (w.buffers.get? key).map (fun c =>
          if c.isEmpty && !b.buffers.contains key then Buffer.empty else c) = w.buffers.get? key := by
        simp [Table.contains_iff.2 hb]
      rw [hid, hours key hb]
    · rw [hkeys, mem_unionKeys] at hkey
      obtain ⟨x, hx⟩ := Table.mem_keys_iff.1 (hkey.resolve_right hb)
      obtain ⟨c, hc, hget⟩ := hin key (mem_unionKeys.2 hkey)
      have hcontains : b.buffers.contains key = false := by simpa [Table.contains] using hb
      have htheirs : b.buffer key = .empty := Buffers.buffer_of_not_mem hb
      have hx' : a.buffer key = x := Buffers.buffer_of_get? hx
      rw [hx', htheirs] at hc
      rw [hget, hothers key hb, hx, Option.map_some, hcontains, Bool.not_false, Bool.and_true]
      have hsum : Buffer.add x (.empty : Buffer C α) = .ok (if x.isEmpty then .empty else x) := by
        unfold Buffer.add
        split
        · rfl
        · exact if_pos rfl
      rw [Except.ok.inj (hc.symm.trans hsum)]

/-- Subtracting in place leaves the difference. -/
theorem decrease_of_sub (h : a.sub b = .ok s) : decrease b a = .ok () s ∧
    s.buffers.keys = a.unionKeys b := by
  obtain ⟨hkeys, hin⟩ := zipWith_eq_ok h
  obtain ⟨w, hw, hwkeys, hours, hothers⟩ := updateWith_of_zipWith h
  suffices hws : w = s from ⟨hws ▸ hw, hkeys⟩
  refine congrArg mk (Table.eq_of_get? (hwkeys.trans hkeys.symm) fun key hkey => ?_)
  by_cases hb : key ∈ b.buffers.keys
  · exact hours key hb
  · rw [hwkeys, mem_unionKeys] at hkey
    obtain ⟨x, hx⟩ := Table.mem_keys_iff.1 (hkey.resolve_right hb)
    obtain ⟨c, hc, hget⟩ := hin key (mem_unionKeys.2 hkey)
    have htheirs : b.buffer key = .empty := Buffers.buffer_of_not_mem hb
    have hx' : a.buffer key = x := Buffers.buffer_of_get? hx
    have hdifference : Buffer.sub x (.empty : Buffer C α) = .ok x := if_pos rfl
    rw [hx', htheirs] at hc
    rw [hothers key hb, hx, hget, Except.ok.inj (hc.symm.trans hdifference)]

end Vectors

end LeastSquares
