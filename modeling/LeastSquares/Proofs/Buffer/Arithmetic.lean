import LeastSquares.Proofs.Buffer.Coordinates
import LeastSquares.Proofs.Edit

/-!
# Vector arithmetic in coordinates

On operands that fit a layout the operations of vectors succeed and act coordinate by coordinate:
scaling, sum and difference, the update in place, and the inner product as the sum over all cells.
-/

namespace LeastSquares

namespace Buffer

variable {C α : Type} [DecidableEq C] [FactorFamily C] [LinearOrder α] [ExactScalar α]

omit [DecidableEq C] [FactorFamily C] [LinearOrder α] [ExactScalar α] in
theorem Holds.count [Scalar α] {b : Buffer C α} {key : Key C} {t : Tensor α} {rows width : Nat}
    (h : b.Holds key t) (ht : t.shape = [rows, width]) : b.count = .ok rows := by
  rw [Buffer.count, h.2]
  simp [Stack.count, Value.ofBlock, Tree.leaves, Block.shape, ht]

theorem checkCompatible_of_holds {a b : Buffer C α} {key : Key C} {s t : Tensor α}
    {rows width : Nat} (ha : a.Holds key s) (hb : b.Holds key t) (hs : s.shape = [rows, width])
    (ht : t.shape = [rows, width]) : a.checkCompatible b = .ok () := by
  simp [checkCompatible, checkContent, checkVectors, ha.1, hb.1, ha.count hs, hb.count ht]

/-- Two arrays of one key and shape combined entry by entry. -/
theorem combine_of_holds {op : Block α → Block α → Option (Block α)} {f : α → α → α}
    (hop : ∀ s t : Tensor α, s.shape = t.shape → ∃ u, op (.reals s) (.reals t) = some (.reals u) ∧
      u.shape = s.shape ∧ ∀ k, k < s.shape.volume → u.entry k = f (s.entry k) (t.entry k))
    (hzero : f 0 0 = 0) {a b : Buffer C α} {key : Key C} {s t : Tensor α} {rows width : Nat}
    (ha : a.Holds key s) (hb : b.Holds key t) (hs : s.shape = [rows, width])
    (ht : t.shape = [rows, width]) :
    ∃ c, combine op a b = .ok c ∧ c.Shaped key rows width ∧ c.isEmpty = false ∧
      ∀ k, c.coordinate k = f (a.coordinate k) (b.coordinate k) := by
  obtain ⟨u, hu, hshape, hentry⟩ := hop s t (hs.trans ht.symm)
  have hc : (a.holding (.values (.ofBlock (.reals u))) .device).Holds key u := ⟨ha.1, rfl⟩
  refine ⟨_, ?_, .inr ⟨u, hc, hshape.trans hs⟩, rfl, fun k => ?_⟩
  · rw [combine, checkCompatible_of_holds ha hb hs ht, ha.2, hb.2]
    simp [Value.ofBlock, Tree.zip?, hu]
  · by_cases hk : k < s.shape.volume
    · rw [hc.coordinate (by rwa [hshape]), ha.coordinate hk,
        hb.coordinate (by rwa [ht, ← hs]), hentry k hk]
    · have hk : s.shape.volume ≤ k := Nat.le_of_not_lt hk
      rw [hc.coordinate_outside (by rwa [hshape]), ha.coordinate_outside hk,
        hb.coordinate_outside (by rwa [ht, ← hs]), hzero]

omit [DecidableEq C] in
theorem scaled_of_shaped {b : Buffer C α} {key : Key C} {rows width : Nat}
    (h : b.Shaped key rows width) (s : α) :
    ∃ c, b.scaled s = .ok c ∧ c.Shaped key rows width ∧ c.isEmpty = b.isEmpty ∧
      ∀ k, c.coordinate k = s * b.coordinate k := by
  rcases h with he | ⟨t, ht, hshape⟩
  · refine ⟨b, by rw [scaled, stack_eq_none he], .inl he, rfl, fun k => ?_⟩
    rw [coordinate_of_isEmpty he, mul_zero]
  · have hc : (b.holding (.values (.ofBlock (.reals (t.map (s * ·))))) .device).Holds key
        (t.map (s * ·)) := ⟨ht.1, rfl⟩
    refine ⟨_, ?_, .inr ⟨_, hc, hshape⟩, ht.isEmpty.symm, fun k => ?_⟩
    · rw [scaled, ht.2]
      simp [checkVectors, ht.1, Value.ofBlock, Tree.map, Block.scaled]
    · by_cases hk : k < t.shape.volume
      · rw [hc.coordinate hk, ht.coordinate hk, Tensor.entry_map hk]
      · have hk : t.shape.volume ≤ k := Nat.le_of_not_lt hk
        rw [hc.coordinate_outside hk, ht.coordinate_outside hk, mul_zero]

theorem add_of_isEmpty_left {a b : Buffer C α} (h : a.isEmpty = true) : a.add b = .ok b := by
  simp [add, h]

theorem add_of_shaped {a b : Buffer C α} {key : Key C} {rows width : Nat}
    (ha : a.Shaped key rows width) (hb : b.Shaped key rows width) :
    ∃ c, a.add b = .ok c ∧ c.Shaped key rows width ∧ c.isEmpty = (a.isEmpty && b.isEmpty) ∧
      ∀ k, c.coordinate k = a.coordinate k + b.coordinate k := by
  rcases ha with he | ⟨s, hs, hsshape⟩
  · refine ⟨b, add_of_isEmpty_left he, hb, by simp [he], fun k => ?_⟩
    rw [coordinate_of_isEmpty he, zero_add]
  · rcases hb with he | ⟨t, ht, htshape⟩
    · refine ⟨a, by simp [add, hs.isEmpty, he], .inr ⟨s, hs, hsshape⟩, by simp [he], fun k => ?_⟩
      rw [coordinate_of_isEmpty he, add_zero]
    · obtain ⟨c, hc, hshape, hempty, hentry⟩ := combine_of_holds
        (fun s t h => Block.add?_reals h) (add_zero 0) hs ht hsshape htshape
      refine ⟨c, ?_, hshape, by simp [hempty, hs.isEmpty], hentry⟩
      simpa [add, hs.isEmpty, ht.isEmpty] using hc

theorem sub_of_shaped {a b : Buffer C α} {key : Key C} {rows width : Nat}
    (ha : a.Shaped key rows width) (hb : b.Shaped key rows width) :
    ∃ c, a.sub b = .ok c ∧ c.Shaped key rows width ∧ c.isEmpty = (a.isEmpty && b.isEmpty) ∧
      ∀ k, c.coordinate k = a.coordinate k - b.coordinate k := by
  by_cases hbe : b.isEmpty = true
  · refine ⟨a, by simp [sub, hbe], ha, by simp [hbe], fun k => ?_⟩
    rw [coordinate_of_isEmpty hbe, sub_zero]
  · rcases ha with hae | ⟨s, hs, hsshape⟩
    · obtain ⟨c, hc, hshape, hempty, hentry⟩ := scaled_of_shaped hb (-Scalar.one)
      refine ⟨c, by simpa [sub, hbe, hae, neg] using hc, hshape, by simp [hempty, hae],
        fun k => ?_⟩
      rw [hentry, coordinate_of_isEmpty hae, Scalar.one_eq, neg_one_mul, zero_sub]
    · obtain ⟨t, ht, htshape⟩ := hb.resolve_left hbe
      obtain ⟨c, hc, hshape, hempty, hentry⟩ := combine_of_holds
        (fun s t h => Block.sub?_reals h) (sub_zero 0) hs ht hsshape htshape
      refine ⟨c, ?_, hshape, by simp [hempty, hs.isEmpty], hentry⟩
      simpa [sub, hs.isEmpty, ht.isEmpty] using hc

/-- An empty operand leaves the other as it is. -/
theorem add_of_isEmpty_right {a b : Buffer C α} (h : b.isEmpty = true) :
    ∃ c, a.add b = .ok c ∧ c.stack = a.stack ∧ (a.isEmpty = false → c = a) := by
  by_cases ha : a.isEmpty = true
  · refine ⟨b, add_of_isEmpty_left ha, ?_, by simp [ha]⟩
    rw [stack_eq_none ha, stack_eq_none h]
  · exact ⟨a, by simp [add, ha, h], rfl, fun _ => rfl⟩

theorem dot_of_isEmpty {a b : Buffer C α} (h : a.isEmpty = true ∨ b.isEmpty = true) :
    ∃ e, a.dot b = .ok e ∧ e.value = 0 := by
  have he : (a.isEmpty || b.isEmpty) = true := by simpa using h
  refine ⟨_, by rw [dot, if_pos he], ?_⟩
  exact Scalar.zero_eq

theorem dot_of_shaped {a b : Buffer C α} {key : Key C} {rows width : Nat}
    (ha : a.Shaped key rows width) (hb : b.Shaped key rows width) :
    ∃ e, a.dot b = .ok e ∧
      e.value = ∑ k ∈ Finset.range (rows * width), a.coordinate k * b.coordinate k := by
  by_cases he : a.isEmpty = true ∨ b.isEmpty = true
  · obtain ⟨e, hdot, hvalue⟩ := dot_of_isEmpty he
    refine ⟨e, hdot, hvalue.trans (Finset.sum_eq_zero fun k _ => ?_).symm⟩
    rcases he with he | he
    · rw [coordinate_of_isEmpty he, zero_mul]
    · rw [coordinate_of_isEmpty he, mul_zero]
  · rw [not_or] at he
    obtain ⟨s, hs, hsshape⟩ := ha.resolve_left he.1
    obtain ⟨t, ht, htshape⟩ := hb.resolve_left he.2
    have hshape : s.shape = t.shape := hsshape.trans htshape.symm
    obtain ⟨u, hu, total, htotal, hvalue⟩ := Block.mul?_sum hshape
    have hvolume : s.shape.volume = rows * width := by simp [hsshape]
    refine ⟨total, ?_, ?_⟩
    · rw [dot, hs.isEmpty, ht.isEmpty, checkCompatible_of_holds hs ht hsshape htshape, hs.2, ht.2]
      simp [Value.ofBlock, Tree.leaves, dotLeaves, hu, htotal]
    · rw [hvalue, hvolume]
      refine Finset.sum_congr rfl fun k hk => ?_
      have hk : k < s.shape.volume := hvolume ▸ Finset.mem_range.1 hk
      rw [hs.coordinate hk, ht.coordinate (hshape ▸ hk)]

end Buffer

namespace Vectors

section

variable {C α : Type} [DecidableEq C] {op : Buffer C α → Buffer C α → Checked (Buffer C α)}

/-! ## Runs over all keys -/

theorem zipWith_ok {a b : Vectors C α}
    (h : ∀ key, ∃ c, op (a.buffer key) (b.buffer key) = .ok c) :
    ∃ w, zipWith op a b = .ok w ∧
      (∀ key ∈ a.unionKeys b, op (a.buffer key) (b.buffer key) = .ok (w.buffer key)) ∧
      ∀ key, key ∉ a.unionKeys b → w.buffer key = .empty := by
  obtain ⟨t, ht, hin, hout⟩ := Checked.foldlM_induct (b := (Table.empty : Buffers C α))
    (P := fun done (t : Buffers C α) =>
      (∀ key ∈ done, op (a.buffer key) (b.buffer key) = .ok (Buffers.buffer t key)) ∧
        ∀ key, key ∉ done → Buffers.buffer t key = .empty)
    (f := fun out key => do return out.insert key (← op (a.buffer key) (b.buffer key)))
    ⟨by simp, fun _ _ => rfl⟩ (a.unionKeys b) (by
      intro done key t _ hP
      obtain ⟨c, hc⟩ := h key
      refine ⟨t.insert key c, by simp [hc], fun k hk => ?_, fun k hk => ?_⟩
      · rw [Buffers.buffer_insert]
        by_cases hkey : k = key
        · rw [if_pos hkey, hkey, hc]
        · rw [if_neg hkey]
          exact hP.1 k (by simpa [hkey] using hk)
      · rw [List.mem_append, not_or, List.mem_singleton] at hk
        rw [Buffers.buffer_insert, if_neg hk.2]
        exact hP.2 k hk.1)
  exact ⟨⟨t⟩, by rw [zipWith, ht]; rfl, hin, hout⟩

theorem mem_unionKeys {a b : Vectors C α} {key : Key C} :
    key ∈ a.unionKeys b ↔ key ∈ a.buffers.keys ∨ key ∈ b.buffers.keys := by
  simp only [unionKeys, List.mem_append, List.mem_filter, Bool.not_eq_true', Bool.eq_false_iff,
    Ne, Table.contains_iff]
  tauto

theorem update_cons {t : Buffers C α} {key : Key C} {theirs c : Buffer C α}
    (h : op (t.buffer key) theirs = .ok c) (rest : List (Key C × Buffer C α)) :
    Buffers.update op ((key, theirs) :: rest) t = Buffers.update op rest (t.insert key c) := by
  rw [Buffers.update, Edit.get_bind, Edit.lift_bind h]
  rfl

theorem update_ok (entries : List (Key C × Buffer C α)) (t : Buffers C α)
    (distinct : (entries.map Prod.fst).Nodup)
    (h : ∀ e ∈ entries, ∃ c, op (t.buffer e.1) e.2 = .ok c) :
    ∃ t' : Buffers C α, Buffers.update op entries t = .ok () t' ∧
      (∀ e ∈ entries, op (t.buffer e.1) e.2 = .ok (t'.buffer e.1)) ∧
      ∀ key, key ∉ entries.map Prod.fst → t'.buffer key = t.buffer key := by
  induction entries generalizing t with
  | nil => exact ⟨t, rfl, by simp, fun _ _ => rfl⟩
  | cons e rest ih =>
    obtain ⟨key, theirs⟩ := e
    rw [List.map_cons, List.nodup_cons] at distinct
    obtain ⟨c, hc⟩ := h (key, theirs) (by simp)
    have hother : ∀ e ∈ rest, Buffers.buffer (t.insert key c) e.1 = t.buffer e.1 := by
      intro e he
      have hmem : e.1 ∈ rest.map Prod.fst := List.mem_map_of_mem he
      have hne : e.1 ≠ key := fun h => distinct.1 (h ▸ hmem)
      rw [Buffers.buffer_insert, if_neg hne]
    obtain ⟨t', ht', hin, hout⟩ := ih (t.insert key c) distinct.2 fun e he => by
      rw [hother e he]
      exact h e (by simp [he])
    refine ⟨t', by rw [update_cons hc, ht'], fun e he => ?_, fun k hk => ?_⟩
    · rcases List.mem_cons.1 he with rfl | he
      · rw [hout key distinct.1, Buffers.buffer_insert, if_pos rfl, hc]
      · rw [← hother e he, hin e he]
    · rw [List.map_cons, List.mem_cons, not_or] at hk
      rw [hout k hk.2, Buffers.buffer_insert, if_neg hk.1]

/-- What holds of the outcome under every key holds of the result, whatever buffers are missing. -/
theorem zipWith_spec {a b : Vectors C α} {P : Key C → Buffer C α → Prop}
    (h : ∀ key, ∃ c, op (a.buffer key) (b.buffer key) = .ok c ∧ P key c)
    (missing : ∀ key, a.buffer key = .empty → b.buffer key = .empty → P key .empty) :
    ∃ w, zipWith op a b = .ok w ∧ ∀ key, P key (w.buffer key) := by
  obtain ⟨w, hw, hin, hout⟩ := zipWith_ok fun key => (h key).imp fun _ h => h.1
  refine ⟨w, hw, fun key => ?_⟩
  by_cases hkey : key ∈ a.unionKeys b
  · obtain ⟨c, hc, hP⟩ := h key
    obtain rfl : w.buffer key = c := Except.ok.inj ((hin key hkey).symm.trans hc)
    exact hP
  · rw [hout key hkey]
    rw [mem_unionKeys, not_or] at hkey
    exact missing key (Buffers.buffer_of_not_mem hkey.1) (Buffers.buffer_of_not_mem hkey.2)

/-- The same of an update in place, which leaves alone what the operand has no buffer for. -/
theorem updateWith_spec {a b : Vectors C α} {P : Key C → Buffer C α → Prop}
    (h : ∀ key, ∃ c, op (a.buffer key) (b.buffer key) = .ok c ∧ P key c)
    (missing : ∀ key, b.buffer key = .empty → P key (a.buffer key)) :
    ∃ w, updateWith op b a = .ok () w ∧ ∀ key, P key (w.buffer key) := by
  have hmerge : ∀ e ∈ b.buffers.entries, ∃ c, op (a.buffers.buffer e.1) e.2 = .ok c ∧ P e.1 c := by
    intro e he
    have hone := h e.1
    rwa [buffer, buffer, Buffers.buffer_of_get? (Table.get?_eq_some_iff.2 he)] at hone
  obtain ⟨t, ht, hin, hout⟩ := update_ok b.buffers.entries a.buffers b.buffers.distinct
    fun e he => (hmerge e he).imp fun _ h => h.1
  refine ⟨⟨t⟩, by rw [updateWith, ht], fun key => ?_⟩
  by_cases hkey : key ∈ b.buffers.keys
  · obtain ⟨theirs, htheirs⟩ := Table.mem_keys_iff.1 hkey
    have hmem := Table.get?_eq_some_iff.1 htheirs
    obtain ⟨c, hc, hP⟩ := hmerge _ hmem
    obtain rfl : Buffers.buffer t key = c := Except.ok.inj ((hin _ hmem).symm.trans hc)
    exact hP
  · rw [buffer, show Buffers.buffer t key = a.buffers.buffer key from hout key hkey]
    exact missing key (Buffers.buffer_of_not_mem hkey)

theorem scaled_spec [FactorFamily C] [Scalar α] {v : Vectors C α} {s : α}
    {P : Key C → Buffer C α → Prop}
    (h : ∀ key, ∃ c, (v.buffer key).scaled s = .ok c ∧ P key c) :
    ∃ w, v.scaled s = .ok w ∧ ∀ key, P key (w.buffer key) := by
  have hone : ∀ key b, v.buffers.get? key = some b → ∃ c, Buffer.scaled b s = .ok c := by
    intro key b hb
    obtain ⟨c, hc, -⟩ := h key
    rw [buffer, Buffers.buffer_of_get? hb] at hc
    exact ⟨c, hc⟩
  obtain ⟨t, ht, hkeys, himages⟩ := Table.mapM_ok (f := fun _ b => Buffer.scaled b s) hone
  refine ⟨⟨t⟩, by rw [scaled, ht]; rfl, fun key => ?_⟩
  obtain ⟨c, hc, hP⟩ := h key
  by_cases hkey : key ∈ v.buffers.keys
  · obtain ⟨b, hb⟩ := Table.mem_keys_iff.1 hkey
    obtain ⟨c', hget, hscaled⟩ := himages key b hb
    rw [buffer, Buffers.buffer_of_get? hb] at hc
    obtain rfl : c' = c := Except.ok.inj (hscaled.symm.trans hc)
    rwa [buffer, Buffers.buffer_of_get? hget]
  · rw [buffer, Buffers.buffer_of_not_mem hkey] at hc
    obtain rfl : .empty = c := Except.ok.inj hc
    rwa [buffer, Buffers.buffer_of_not_mem (by rwa [hkeys])]

end

variable {C α : Type} [DecidableEq C] [FactorFamily C] [LinearOrder α] [ExactScalar α]
  {L : Layout C}

theorem scaled_of_within {v : Vectors C α} (h : v.Within L) (s : α) :
    ∃ w, v.scaled s = .ok w ∧ w.Within L ∧ ∀ u, w.coordinate u = s * v.coordinate u := by
  obtain ⟨w, hw, hspec⟩ := scaled_spec fun key => Buffer.scaled_of_shaped (h.shaped key) s
  refine ⟨w, hw, ⟨fun key _ => (hspec key).1, fun key hkey => ?_⟩, fun u => (hspec u.1).2.2 u.2⟩
  rw [(hspec key).2.1]
  exact h.outside key hkey

theorem neg_of_within {v : Vectors C α} (h : v.Within L) :
    ∃ w, v.neg = .ok w ∧ w.Within L ∧ ∀ u, w.coordinate u = -v.coordinate u := by
  obtain ⟨w, hw, hwithin, hcoord⟩ := scaled_of_within h (-Scalar.one)
  refine ⟨w, hw, hwithin, fun u => ?_⟩
  rw [hcoord, Scalar.one_eq, neg_one_mul]

/-! ## Sums and differences -/

omit [FactorFamily C] in
/-- An operation that acts entry by entry on buffers does so on collections. -/
theorem zipWith_of_within {op : Buffer C α → Buffer C α → Checked (Buffer C α)}
    {f : α → α → α} (hzero : f 0 0 = 0)
    (hop : ∀ {a b : Buffer C α} {key rows width}, a.Shaped key rows width →
      b.Shaped key rows width → ∃ c, op a b = .ok c ∧ c.Shaped key rows width ∧
        c.isEmpty = (a.isEmpty && b.isEmpty) ∧
        ∀ k, c.coordinate k = f (a.coordinate k) (b.coordinate k))
    {a b : Vectors C α} (ha : a.Within L) (hb : b.Within L) :
    ∃ w, zipWith op a b = .ok w ∧ w.Within L ∧
      ∀ u, w.coordinate u = f (a.coordinate u) (b.coordinate u) := by
  obtain ⟨w, hw, hspec⟩ := zipWith_spec (fun key => hop (ha.shaped key) (hb.shaped key))
    fun key hae hbe => by
      rw [hae, hbe]
      refine ⟨.of_isEmpty rfl .., rfl, fun k => ?_⟩
      rw [Buffer.coordinate_of_isEmpty rfl, hzero]
  refine ⟨w, hw, ⟨fun key _ => (hspec key).1, fun key hkey => ?_⟩, fun u => (hspec u.1).2.2 u.2⟩
  rw [(hspec key).2.1, ha.outside key hkey, hb.outside key hkey]
  rfl

theorem add_of_within {a b : Vectors C α} (ha : a.Within L) (hb : b.Within L) :
    ∃ w, a.add b = .ok w ∧ w.Within L ∧ ∀ u, w.coordinate u = a.coordinate u + b.coordinate u :=
  zipWith_of_within (add_zero 0) Buffer.add_of_shaped ha hb

theorem sub_of_within {a b : Vectors C α} (ha : a.Within L) (hb : b.Within L) :
    ∃ w, a.sub b = .ok w ∧ w.Within L ∧ ∀ u, w.coordinate u = a.coordinate u - b.coordinate u :=
  zipWith_of_within (sub_zero 0) Buffer.sub_of_shaped ha hb

/-! ## Updates in place -/

/-- Adding in place what lies within a layout to what fits it. Arrays that are there stay. -/
theorem increase_of_fits {x d : Vectors C α} (hx : x.Fits L) (hd : d.Within L) :
    ∃ y, increase d x = .ok () y ∧ y.Fits L ∧
      (∀ key, (y.buffer key).isEmpty = ((x.buffer key).isEmpty && (d.buffer key).isEmpty)) ∧
      ∀ u, y.coordinate u = x.coordinate u + d.coordinate u := by
  have hone : ∀ key, ∃ c, (x.buffer key).add (d.buffer key) = .ok c ∧
      (key ∈ L.keys → c.Shaped key (L.rows key) (L.width key)) ∧
      c.isEmpty = ((x.buffer key).isEmpty && (d.buffer key).isEmpty) ∧
      ∀ k, c.coordinate k = (x.buffer key).coordinate k + (d.buffer key).coordinate k := by
    intro key
    by_cases hkey : key ∈ L.keys
    · obtain ⟨c, hc, hshape, hempty, hcoord⟩ := Buffer.add_of_shaped (hx key hkey) (hd.shaped key)
      exact ⟨c, hc, fun _ => hshape, hempty, hcoord⟩
    · have he := hd.outside key hkey
      obtain ⟨c, hc, hstack, -⟩ := Buffer.add_of_isEmpty_right (a := x.buffer key) he
      refine ⟨c, hc, fun h => absurd h hkey, ?_, fun k => ?_⟩
      · rw [he, Bool.and_true, Buffer.isEmpty, hstack, Buffer.isEmpty]
      · rw [Buffer.coordinate_of_isEmpty he, add_zero, Buffer.coordinate, hstack, Buffer.coordinate]
  obtain ⟨y, hy, hspec⟩ := updateWith_spec hone fun key hempty => by
    rw [hempty]
    refine ⟨hx key, (Bool.and_true _).symm, fun k => ?_⟩
    rw [Buffer.coordinate_of_isEmpty (show (Buffer.empty : Buffer C α).isEmpty = true from rfl),
      add_zero]
  exact ⟨y, hy, fun key hkey => (hspec key).1 hkey, fun key => (hspec key).2.1,
    fun u => (hspec u.1).2.2 u.2⟩

/-! ## Inner products -/

/-- The inner product is the sum of what stands under our keys; the other keys add nothing. -/
theorem dot_spec {a b : Vectors C α} {F : Key C → α}
    (h : ∀ key, ∃ e, (a.buffer key).dot (b.buffer key) = .ok e ∧ e.value = F key) :
    a.dot b = .ok (∑ key ∈ a.buffers.keys.toFinset, F key) ∧ ∀ key ∉ a.buffers.keys, F key = 0 := by
  have hmissing : ∀ key, key ∉ a.buffers.keys ∨ key ∉ b.buffers.keys → F key = 0 := by
    intro key hkey
    have hempty : (a.buffer key).isEmpty = true ∨ (b.buffer key).isEmpty = true :=
      hkey.imp (fun h => congrArg Buffer.isEmpty (Buffers.buffer_of_not_mem h))
        fun h => congrArg Buffer.isEmpty (Buffers.buffer_of_not_mem h)
    obtain ⟨e, he, hvalue⟩ := h key
    obtain ⟨e', he', hzero⟩ := Buffer.dot_of_isEmpty hempty
    obtain rfl : e = e' := Except.ok.inj (he.symm.trans he')
    exact hvalue.symm.trans hzero
  obtain ⟨total, htotal, hsum⟩ := Checked.foldlM_induct (b := (Scalar.zero : α))
    (P := fun done total => total = (done.map fun e => F e.1).sum)
    (f := fun total e =>
      if b.buffers.contains e.1 then do
        return total + (← Buffer.dot e.2 (b.buffer e.1)).value
      else return total)
    (by simp) a.buffers.entries (by
      intro done e total he hP
      obtain ⟨key, ours⟩ := e
      have hours : a.buffer key = ours := Buffers.buffer_of_get? (Table.get?_eq_some_iff.2 he)
      obtain ⟨c, hc, hvalue⟩ := h key
      rw [hours] at hc
      by_cases hkey : key ∈ b.buffers.keys
      · refine ⟨total + F key, ?_, by simp [hP]⟩
        simp [Table.contains_iff.2 hkey, hc, hvalue]
      · refine ⟨total, ?_, by simp [hP, hmissing key (.inr hkey)]⟩
        simp [Table.contains, hkey])
  refine ⟨?_, fun key hkey => hmissing key (.inl hkey)⟩
  rw [dot, htotal, hsum, List.sum_toFinset _ (show a.buffers.keys.Nodup from a.buffers.distinct),
    Table.keys, List.map_map]
  rfl

/-- The inner product is the sum over all cells, if outside the layout one operand is empty. -/
theorem dot_of_fits {a b : Vectors C α} (ha : a.Fits L) (hb : b.Fits L)
    (outside : ∀ key ∉ L.keys, (a.buffer key).isEmpty = true ∨ (b.buffer key).isEmpty = true) :
    a.dot b = .ok (∑ u ∈ L.cells, a.coordinate u * b.coordinate u) := by
  have hone : ∀ key, ∃ e, (a.buffer key).dot (b.buffer key) = .ok e ∧
      e.value = if key ∈ L.keys then
        ∑ k ∈ Finset.range (L.size key), a.coordinate (key, k) * b.coordinate (key, k) else 0 := by
    intro key
    by_cases hkey : key ∈ L.keys
    · obtain ⟨e, he, hvalue⟩ := Buffer.dot_of_shaped (ha key hkey) (hb key hkey)
      refine ⟨e, he, ?_⟩
      rw [if_pos hkey, hvalue]
      rfl
    · obtain ⟨e, he, hvalue⟩ := Buffer.dot_of_isEmpty (outside key hkey)
      exact ⟨e, he, by rw [if_neg hkey, hvalue]⟩
  obtain ⟨hdot, hmissing⟩ := dot_spec hone
  rw [hdot, Layout.sum_cells]
  refine congrArg Except.ok (Finset.sum_congr_of_eq_on_inter (fun key _ h => if_neg h)
    (fun key hkey h => ?_) fun key _ h => if_pos h)
  rw [← hmissing key (by simpa using h), if_pos hkey]

/-- The squared norm adds up those of all buffers. -/
theorem squaredNorm_eq (v : Vectors C α) :
    v.squaredNorm = (v.buffers.entries.mapM fun e => do return (← e.2.squaredNorm).value) >>=
      fun norms => .ok norms.sum := by
  have hself : v.squaredNorm = v.buffers.entries.foldlM
      (fun total e => do return total + (← e.2.squaredNorm).value) (Scalar.zero : α) := by
    refine Checked.foldlM_congr (fun e he total => ?_) _
    obtain ⟨key, b⟩ := e
    have hget : v.buffer key = b := Buffers.buffer_of_get? (Table.get?_eq_some_iff.2 he)
    have hmem : v.buffers.contains key = true :=
      Table.contains_iff.2 (List.mem_map_of_mem (f := Prod.fst) he)
    refine (if_pos hmem).trans ?_
    rw [hget]
    rfl
  rw [hself, Checked.foldlM_add (F := fun e => do return (← e.2.squaredNorm).value)]
  · simp only [Scalar.zero_eq, zero_add]
  · intro total e
    cases e.2.squaredNorm <;> rfl

/-- Further buffers add their squared norm. -/
theorem squaredNorm_appended {r d r' : Vectors C α}
    (h : r'.buffers.entries = r.buffers.entries ++ d.buffers.entries) {m : α}
    (hd : d.squaredNorm = .ok m) :
    Checked.Alike (fun n n' => n' = n + m) r.squaredNorm r'.squaredNorm := by
  rw [squaredNorm_eq] at hd
  obtain ⟨new, hnew, hsum⟩ := Checked.bind_eq_ok hd
  cases hsum
  rw [squaredNorm_eq r, squaredNorm_eq r', h, List.mapM_append, hnew]
  cases r.buffers.entries.mapM fun e => do return (← e.2.squaredNorm).value with
  | error e => exact .error e
  | ok old => exact .ok List.sum_append

end Vectors

end LeastSquares
