import LeastSquares.Proofs.Checked
import LeastSquares.Buffer.Table

/-!
# Looking up in tables

A table is read by its entries or by `get?`; the two agree because keys are distinct. Mapping and
inserting are described through `get?` and the list of keys.
-/

namespace LeastSquares.Table

variable {K V W : Type} [DecidableEq K]

theorem find_eq_some_iff {key : K} {v : V} {entries : List (K × V)}
    (distinct : (entries.map Prod.fst).Nodup) :
    find key entries = some v ↔ (key, v) ∈ entries := by
  induction entries with
  | nil => simp [find]
  | cons e rest ih =>
    obtain ⟨k, w⟩ := e
    simp only [List.map_cons, List.nodup_cons] at distinct
    by_cases h : k = key
    · subst h
      have hrest : (k, v) ∉ rest := fun hm => distinct.1 (List.mem_map_of_mem (f := Prod.fst) hm)
      simp [find, hrest, eq_comm]
    · simp [find, h, Ne.symm h, ih distinct.2]

theorem get?_eq_some_iff {t : Table K V} {key : K} {v : V} :
    t.get? key = some v ↔ (key, v) ∈ t.entries :=
  find_eq_some_iff t.distinct

theorem forall_get? {t : Table K V} {P : K → V → Prop} (h : ∀ e ∈ t.entries, P e.1 e.2) (key : K)
    (v : V) (hv : t.get? key = some v) : P key v := h (key, v) (get?_eq_some_iff.1 hv)

theorem get?_eq_none_iff {t : Table K V} {key : K} : t.get? key = none ↔ key ∉ t.keys := by
  constructor
  · intro h hm
    obtain ⟨⟨k, v⟩, he, rfl⟩ := List.mem_map.1 hm
    rw [get?_eq_some_iff.2 he] at h
    cases h
  · intro h
    cases hg : t.get? key with
    | none => rfl
    | some v => exact absurd (List.mem_map_of_mem (f := Prod.fst) (get?_eq_some_iff.1 hg)) h

theorem mem_keys_iff {t : Table K V} {key : K} : key ∈ t.keys ↔ ∃ v, t.get? key = some v := by
  rw [← Option.ne_none_iff_exists', Ne, get?_eq_none_iff, not_not]

theorem contains_iff {t : Table K V} {key : K} : t.contains key = true ↔ key ∈ t.keys := by
  simp [contains]

/-! ## Mapping -/

theorem find_map (f : K → V → W) (key : K) (entries : List (K × V)) :
    find key (entries.map fun e => (e.1, f e.1 e.2)) = (find key entries).map (f key) := by
  induction entries with
  | nil => rfl
  | cons e rest ih =>
    obtain ⟨k, v⟩ := e
    by_cases h : k = key
    · subst h
      simp [find]
    · simp [find, h, ih]

theorem get?_map (f : K → V → W) (t : Table K V) (key : K) :
    (t.map f).get? key = (t.get? key).map (f key) :=
  find_map f key t.entries

omit [DecidableEq K] in
@[simp] theorem keys_map_eq (f : K → V → W) (t : Table K V) : (t.map f).keys = t.keys :=
  keys_map f t.entries

theorem replace_of_not_mem {key : K} {v : V} {entries : List (K × V)}
    (h : key ∉ entries.map Prod.fst) : replace key v entries = entries ++ [(key, v)] := by
  induction entries with
  | nil => rfl
  | cons e rest ih =>
    obtain ⟨k, w⟩ := e
    simp only [List.map_cons, List.mem_cons, not_or] at h
    simp [replace, Ne.symm h.1, ih h.2]

theorem entries_insert_of_not_mem {t : Table K V} {key : K} {v : V} (h : key ∉ t.keys) :
    (t.insert key v).entries = t.entries ++ [(key, v)] :=
  replace_of_not_mem h

/-- The entries that have an image, with their images. -/
def images (image : K → V → Option W) (entries : List (K × V)) : List (K × W) :=
  entries.filterMap fun e => (image e.1 e.2).map (e.1, ·)

omit [DecidableEq K] in
theorem keys_images {image : K → V → Option W} {entries : List (K × V)}
    (h : ∀ e ∈ entries, ∃ w, image e.1 e.2 = some w) :
    (images image entries).map Prod.fst = entries.map Prod.fst := by
  induction entries with
  | nil => rfl
  | cons e entries ih =>
    obtain ⟨w, hw⟩ := h e (by simp)
    have hrest := ih fun e' he' => h e' (by simp [he'])
    rw [images] at hrest ⊢
    simp [hw, hrest]

omit [DecidableEq K] in
theorem mem_of_mem_images {image : K → V → Option W} {entries : List (K × V)} {e : K × W}
    (h : e ∈ images image entries) : ∃ v, (e.1, v) ∈ entries ∧ image e.1 v = some e.2 := by
  obtain ⟨⟨k, v⟩, hmem, hv⟩ := List.mem_filterMap.1 h
  obtain ⟨w, hw, rfl⟩ := Option.map_eq_some_iff.1 hv
  exact ⟨v, hmem, hw⟩

/-- What is found among images under the key of an entry is its image. -/
theorem get?_images {image : K → V → Option W} {t : Table K V} {u : Table K W}
    (hu : u.entries = images image t.entries) {e : K × V} (he : e ∈ t.entries) :
    u.get? e.1 = image e.1 e.2 := by
  cases hc : image e.1 e.2 with
  | some w =>
    rw [get?_eq_some_iff, hu]
    exact List.mem_filterMap.2 ⟨e, he, by rw [hc]; rfl⟩
  | none =>
    refine Option.eq_none_iff_forall_ne_some.2 fun w hw => ?_
    rw [get?_eq_some_iff, hu] at hw
    obtain ⟨v, hv, himage⟩ := mem_of_mem_images hw
    have hget : t.get? e.1 = some e.2 := get?_eq_some_iff.2 he
    have hsame : v = e.2 := Option.some.inj ((get?_eq_some_iff.2 hv).symm.trans hget)
    rw [hsame, hc] at himage
    cases himage

/-- Mapping with an operation whose outcome on every entry is known. -/
theorem filterMapM_ok {f : K → V → Checked (Option W)} (image : K → V → Option W) {t : Table K V}
    (h : ∀ e ∈ t.entries, f e.1 e.2 = .ok (image e.1 e.2)) :
    ∃ u, t.filterMapM f = .ok u ∧ u.entries = images image t.entries := by
  obtain ⟨u, hu, himages⟩ : ∃ u, t.filterMapM f = .ok u ∧
      ((t.entries.map Prod.fst).Nodup → u.entries = images image t.entries) := by
    unfold filterMapM
    refine Checked.foldlM_induct
      (P := fun done (u : Table K W) => (done.map Prod.fst).Nodup → u.entries = images image done)
      (fun _ => rfl) t.entries fun done e u he hP => ?_
    cases hw : image e.1 e.2 with
    | none =>
      refine ⟨u, by simp [h e he, hw], fun hnodup => ?_⟩
      rw [List.map_append, List.nodup_append] at hnodup
      rw [hP hnodup.1]
      simp [images, hw]
    | some w =>
      refine ⟨u.insert e.1 w, by simp [h e he, hw], fun hnodup => ?_⟩
      rw [List.map_append, List.nodup_append] at hnodup
      have hdone := hP hnodup.1
      have hnew : e.1 ∉ u.keys := by
        intro hm
        rw [keys, hdone] at hm
        obtain ⟨e', he', hkey⟩ := List.mem_map.1 hm
        obtain ⟨v, hv, -⟩ := mem_of_mem_images he'
        exact hnodup.2.2 _ (List.mem_map_of_mem (f := Prod.fst) hv) e.1 (by simp) hkey
      rw [entries_insert_of_not_mem hnew, hdone]
      simp [images, hw]
  exact ⟨u, hu, himages t.distinct⟩

/-- A mapping that succeeds has done so on every entry. -/
theorem exists_images {f : K → V → Checked (Option W)} {t : Table K V} {u : Table K W}
    (h : t.filterMapM f = .ok u) :
    ∃ image : K → V → Option W, (∀ e ∈ t.entries, f e.1 e.2 = .ok (image e.1 e.2)) ∧
      u.entries = images image t.entries := by
  have himage : ∀ e ∈ t.entries, f e.1 e.2 = .ok (f e.1 e.2).toOption.join := by
    intro e he
    obtain ⟨b, c, hstep⟩ := Checked.foldlM_steps h e he
    obtain ⟨o, ho, -⟩ := Checked.bind_eq_ok hstep
    rw [ho]
    rfl
  obtain ⟨u', hu', hentries⟩ := filterMapM_ok (fun k v => (f k v).toOption.join) himage
  obtain rfl := Except.ok.inj (hu'.symm.trans h)
  exact ⟨_, himage, hentries⟩

/-- What a mapping that succeeds has under a key. -/
theorem get?_filterMapM {f : K → V → Checked (Option W)} {t : Table K V} {u : Table K W}
    (h : t.filterMapM f = .ok u) {key : K} {v : V} (hv : t.get? key = some v) :
    f key v = .ok (u.get? key) := by
  obtain ⟨image, himage, hu⟩ := exists_images h
  have hmem := get?_eq_some_iff.1 hv
  rw [himage _ hmem, get?_images hu hmem]

theorem get?_filterMapM_none {f : K → V → Checked (Option W)} {t : Table K V} {u : Table K W}
    (h : t.filterMapM f = .ok u) {key : K} (hkey : t.get? key = none) : u.get? key = none := by
  obtain ⟨image, -, hu⟩ := exists_images h
  refine Option.eq_none_iff_forall_ne_some.2 fun w hw => ?_
  rw [get?_eq_some_iff, hu] at hw
  obtain ⟨v, hv, -⟩ := mem_of_mem_images hw
  rw [get?_eq_some_iff.2 hv] at hkey
  cases hkey

/-- Mapping succeeds where it does on every entry. -/
theorem exists_filterMapM {f : K → V → Checked (Option W)} {t : Table K V}
    (h : ∀ e ∈ t.entries, ∃ o, f e.1 e.2 = .ok o) : ∃ u, t.filterMapM f = .ok u := by
  obtain ⟨u, hu, -⟩ := filterMapM_ok (f := f) (fun k v => (f k v).toOption.join) (t := t) fun e he => by
    obtain ⟨o, ho⟩ := h e he
    rw [ho]
    rfl
  exact ⟨u, hu⟩

/-- Mapping with an operation that succeeds on every entry. -/
theorem mapM_ok {f : K → V → Checked W} {t : Table K V}
    (h : ∀ key v, t.get? key = some v → ∃ w, f key v = .ok w) :
    ∃ u, t.mapM f = .ok u ∧ u.keys = t.keys ∧
      ∀ key v, t.get? key = some v → ∃ w, u.get? key = some w ∧ f key v = .ok w := by
  have himage : ∀ e ∈ t.entries, ∃ w, f e.1 e.2 = .ok w ∧ (f e.1 e.2).toOption = some w := by
    intro e he
    obtain ⟨w, hw⟩ := h e.1 e.2 (get?_eq_some_iff.2 he)
    exact ⟨w, hw, by rw [hw]; rfl⟩
  obtain ⟨u, hu, hentries⟩ := filterMapM_ok (f := fun k v => do return some (← f k v))
    (fun k v => (f k v).toOption) (t := t) fun e he => by
      obtain ⟨w, hw, hoption⟩ := himage e he
      rw [hoption, hw]
      rfl
  refine ⟨u, hu, ?_, fun key v hv => ?_⟩
  · rw [keys, hentries, images, List.map_filterMap, keys, ← List.filterMap_eq_map]
    refine List.filterMap_congr fun e he => ?_
    obtain ⟨w, -, hoption⟩ := himage e he
    rw [hoption]
    rfl
  · obtain ⟨w, hw, hoption⟩ := himage _ (get?_eq_some_iff.1 hv)
    refine ⟨w, get?_eq_some_iff.2 ?_, hw⟩
    rw [hentries]
    exact List.mem_filterMap.2 ⟨(key, v), get?_eq_some_iff.1 hv,
      congrArg (Option.map fun x => (key, x)) hoption⟩

/-- A mapping that succeeds, entry by entry. -/
theorem entries_mapM {f : K → V → Checked W} {t : Table K V} {u : Table K W} (h : t.mapM f = .ok u) :
    (∀ e ∈ t.entries, ∃ w, f e.1 e.2 = .ok w) ∧
      u.entries = images (fun k v => (f k v).toOption) t.entries := by
  obtain ⟨image, himage, hentries⟩ := exists_images h
  have hone : ∀ e ∈ t.entries, ∃ w, f e.1 e.2 = .ok w ∧ image e.1 e.2 = some w := by
    intro e he
    obtain ⟨w, hw, hsome⟩ := Checked.bind_eq_ok (himage e he)
    exact ⟨w, hw, (Except.ok.inj hsome).symm⟩
  refine ⟨fun e he => (hone e he).imp fun w h => h.1, hentries.trans ?_⟩
  refine List.filterMap_congr fun e he => ?_
  obtain ⟨w, hw, hsome⟩ := hone e he
  simp only [hsome, hw]
  rfl

theorem keys_mapM {f : K → V → Checked W} {t : Table K V} {u : Table K W} (h : t.mapM f = .ok u) :
    u.keys = t.keys := by
  obtain ⟨hone, hentries⟩ := entries_mapM h
  rw [keys, hentries]
  refine keys_images fun e he => ?_
  obtain ⟨w, hw⟩ := hone e he
  exact ⟨w, by rw [hw]; rfl⟩

/-! ## Tables with further entries -/

section Appended

variable {t d t' : Table K V} (h : t'.entries = t.entries ++ d.entries)

include h

theorem get?_appended_left {key : K} (hkey : key ∈ t.keys) : t'.get? key = t.get? key := by
  obtain ⟨v, hv⟩ := mem_keys_iff.1 hkey
  rw [hv, get?_eq_some_iff, h]
  exact List.mem_append_left _ (get?_eq_some_iff.1 hv)

theorem get?_appended_right {key : K} (hkey : key ∈ d.keys) : t'.get? key = d.get? key := by
  obtain ⟨v, hv⟩ := mem_keys_iff.1 hkey
  rw [hv, get?_eq_some_iff, h]
  exact List.mem_append_right _ (get?_eq_some_iff.1 hv)

/-- Mapping works off the old entries first, then those that were appended. -/
theorem mapM_appended {f : K → V → Checked W} {w : Table K W} (hd : d.mapM f = .ok w) :
    Checked.Alike (fun u u' => u.keys = t.keys ∧ u'.entries = u.entries ++ w.entries)
      (t.mapM f) (t'.mapM f) := by
  cases ht : t.mapM f with
  | error e =>
    have hfails : t'.mapM f = .error e := by
      rw [← ht]
      unfold mapM filterMapM at ht ⊢
      rw [h, List.foldlM_append, ht]
      rfl
    rw [hfails]
    exact .error e
  | ok u =>
    obtain ⟨hold, hentries⟩ := entries_mapM ht
    obtain ⟨hnew, hwentries⟩ := entries_mapM hd
    obtain ⟨u', hu', -⟩ := mapM_ok (f := f) (t := t') fun key v hv => by
      rw [get?_eq_some_iff, h, List.mem_append] at hv
      exact hv.elim (hold (key, v)) (hnew (key, v))
    rw [hu']
    refine .ok ⟨keys_mapM ht, ?_⟩
    rw [(entries_mapM hu').2, h, hentries, hwentries, images, List.filterMap_append]
    rfl

end Appended

/-! ## Inserting -/

theorem keys_insert_of_mem {t : Table K V} {key : K} {v : V} (h : key ∈ t.keys) :
    (t.insert key v).keys = t.keys := by
  have go : ∀ entries : List (K × V), key ∈ entries.map Prod.fst →
      (replace key v entries).map Prod.fst = entries.map Prod.fst := by
    intro entries
    induction entries with
    | nil => simp
    | cons e rest ih =>
      obtain ⟨k, w⟩ := e
      intro hm
      by_cases hk : k = key
      · subst hk
        simp [replace]
      · simp only [List.map_cons, List.mem_cons, Ne.symm hk, false_or] at hm
        simp [replace, hk, ih hm]
  exact go t.entries h

theorem keys_insert_of_not_mem {t : Table K V} {key : K} {v : V} (h : key ∉ t.keys) :
    (t.insert key v).keys = t.keys ++ [key] := by
  simp [keys, entries_insert_of_not_mem h]

/-- Of two entries under one key the later stays. -/
theorem insert_insert (t : Table K V) (key : K) (v w : V) :
    (t.insert key v).insert key w = t.insert key w := by
  have go : ∀ entries : List (K × V),
      replace key w (replace key v entries) = replace key w entries := by
    intro entries
    induction entries with
    | nil => simp [replace]
    | cons e rest ih =>
      obtain ⟨k, u⟩ := e
      by_cases hk : k = key
      · simp [replace, hk]
      · simp [replace, hk, ih]
  simp only [insert, go]

end LeastSquares.Table
