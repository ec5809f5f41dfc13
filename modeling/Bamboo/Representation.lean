import Bamboo.Shelves

/-!
# The representation of the forest

`AddVertex` as one of four assignments, and what `AddVertex` and `PruneUpToLevel` keep of the two indices
and of the child lists, whatever the vertices.

* `stow`, `adopt`: a block goes into its container, a container into the child list of its parent;
* `addVertex_cases`: `AddVertex` does nothing, stows the block, or stows it and has it adopted;
* `Orderly`: the indices agree, no container is listed twice, children are FULL and name their parent;
* `ForestCall`, `forestCalls`: sequences of calls to a forest;
* `forest_represented`: the representation invariant after any sequence of calls.
-/

namespace Bamboo

namespace LevelledForest

variable {f t : LevelledForest} {b : Block} {x l p : ℕ}

/-! ### Adding a vertex -/

/-- The container for the block. -/
def place (f : LevelledForest) (b : Block) : ℕ := (f.getOrCreateVertexContainer b.id b.level).1

/-- The block is put into its container. -/
def stow (f : LevelledForest) (b : Block) : LevelledForest :=
  (f.getOrCreateVertexContainer b.id b.level).2.modifyAt (f.place b) fun c => { c with vertex := some b }

/-- The container behind `p` becomes a child of the container of `x`. -/
def adopt (f : LevelledForest) (p x l : ℕ) : LevelledForest :=
  (f.getOrCreateVertexContainer x l).2.modifyAt (f.getOrCreateVertexContainer x l).1
    fun c => { c with children := c.children ++ [p] }

theorem lookup_stow (f : LevelledForest) (b : Block) :
    (f.stow b).vertices.lookup b.id = some (f.place b) := lookup_getOrCreate b.id b.level

/-- The container of a block that was not stored was EMPTY, or is new. -/
theorem heap_place (hf : f.WF) (hn : f.getVertex b.id = none) :
    ∃ c, (f.getOrCreateVertexContainer b.id b.level).2.heap[f.place b]? = some c ∧ c.id = b.id ∧
      c.vertex = none ∧ (f.stow b).heap[f.place b]? = some { c with vertex := some b } := by
  have hlk := lookup_getOrCreate (f := f) b.id b.level
  have hgv := getVertex_getOrCreate hf b.id b.level b.id
  obtain ⟨c, hc, hid⟩ := wf_getOrCreate hf b.id b.level b.id _ hlk
  refine ⟨c, hc, hid, ?_, ?_⟩
  · rw [hn] at hgv
    unfold getVertex at hgv
    rw [hlk] at hgv
    simpa [hc] using hgv
  · have hc' : (f.getOrCreateVertexContainer b.id b.level).2.heap[
        (f.getOrCreateVertexContainer b.id b.level).1]? = some c := hc
    simp [stow, place, modifyAt, hc']

theorem heap_modifyAt (f : LevelledForest) (p : ℕ) (g : VertexContainer → VertexContainer) (q : ℕ) :
    (f.modifyAt p g).heap[q]? = if p = q then f.heap[q]?.map g else f.heap[q]? := by
  simp only [modifyAt, List.getElem?_modify]
  split_ifs <;> simp

theorem heap_getOrCreate (f : LevelledForest) (x l : ℕ) :
    (f.getOrCreateVertexContainer x l).2.heap = f.heap ∨
      (f.getOrCreateVertexContainer x l).2.heap = f.heap ++ [⟨x, l, [], none⟩] := by
  unfold getOrCreateVertexContainer
  cases f.vertices.lookup x with
  | some p => exact Or.inl rfl
  | none => exact Or.inr rfl

/-- A container was there before, or is a new placeholder. -/
theorem heap_getOrCreate_cases {c : VertexContainer}
    (h : (f.getOrCreateVertexContainer x l).2.heap[p]? = some c) :
    f.heap[p]? = some c ∨ c = ⟨x, l, [], none⟩ := by
  rcases heap_getOrCreate f x l with he | he
  · exact Or.inl (he ▸ h)
  · rw [he, List.getElem?_append] at h
    split_ifs at h
    · exact Or.inl h
    · exact Or.inr (List.mem_singleton.1 (List.mem_of_getElem? h))

theorem heap_getOrCreate_of_some {c : VertexContainer} (h : f.heap[p]? = some c) (x l : ℕ) :
    (f.getOrCreateVertexContainer x l).2.heap[p]? = some c := by
  rcases heap_getOrCreate f x l with he | he
  · rw [he, h]
  · rw [he, List.getElem?_append_left (List.getElem?_eq_some_iff.1 h).1, h]

/-- Stowing a block writes to its container only. -/
theorem heap_stow_cases {d : VertexContainer} (h : (f.stow b).heap[p]? = some d) :
    (p = f.place b ∧ d.vertex = some b ∧ ∃ c, (f.getOrCreateVertexContainer b.id b.level).2.heap[p]? = some c ∧
      d = { c with vertex := some b }) ∨
      p ≠ f.place b ∧ (f.getOrCreateVertexContainer b.id b.level).2.heap[p]? = some d := by
  rw [stow, heap_modifyAt] at h
  split_ifs at h with hp
  · obtain ⟨c, hc, rfl⟩ := Option.map_eq_some_iff.1 h
    exact Or.inl ⟨hp.symm, rfl, c, hc, rfl⟩
  · exact Or.inr ⟨Ne.symm hp, h⟩

/-- An adoption changes the child list of one container. -/
theorem heap_adopt_cases {q : ℕ} {d : VertexContainer} (h : (f.adopt p x l).heap[q]? = some d) :
    ∃ c, (f.getOrCreateVertexContainer x l).2.heap[q]? = some c ∧ d.id = c.id ∧ d.level = c.level ∧
      d.vertex = c.vertex ∧ (d.children = c.children ∨
        q = (f.getOrCreateVertexContainer x l).1 ∧ d.children = c.children ++ [p]) := by
  rw [adopt, heap_modifyAt] at h
  split_ifs at h with hq
  · obtain ⟨c, hc, rfl⟩ := Option.map_eq_some_iff.1 h
    exact ⟨c, hc, rfl, rfl, rfl, Or.inr ⟨hq.symm, rfl⟩⟩
  · exact ⟨d, h, rfl, rfl, rfl, Or.inl rfl⟩

/-- How `AddVertex` changes the forest. -/
inductive AddCases (f : LevelledForest) (b : Block) : LevelledForest → Prop
  /-- the block is below the lowest level, or stored already -/
  | ignored (h : b.level < f.lowestLevel ∨ f.getVertex b.id ≠ none) : AddCases f b f
  /-- the block has no place for a parent -/
  | root {c : VertexContainer} (hlow : f.lowestLevel ≤ b.level) (hn : f.getVertex b.id = none)
      (hc : (f.stow b).heap[f.place b]? = some c)
      (hr : c.level ≤ f.lowestLevel ∨ ∃ y m, b.parent = some (y, m) ∧ m < f.lowestLevel) :
      AddCases f b (f.stow b)
  /-- the block is registered with its parent -/
  | child {c : VertexContainer} {y m : ℕ} (hlow : f.lowestLevel ≤ b.level) (hn : f.getVertex b.id = none)
      (hc : (f.stow b).heap[f.place b]? = some c) (hr : f.lowestLevel < c.level)
      (hp : b.parent = some (y, m)) (hm : f.lowestLevel ≤ m) :
      AddCases f b ((f.stow b).adopt (f.place b) y m)

theorem lowestLevel_stow (f : LevelledForest) (b : Block) : (f.stow b).lowestLevel = f.lowestLevel :=
  lowestLevel_getOrCreate b.id b.level

theorem lowestLevel_adopt (f : LevelledForest) (p x l : ℕ) : (f.adopt p x l).lowestLevel = f.lowestLevel :=
  lowestLevel_getOrCreate x l

/-- **What `AddVertex` does when it returns.** -/
theorem addVertex_cases (hf : f.WF) (h : addVertex b f = .ok () t) : f.AddCases b t := by
  unfold addVertex at h
  rw [Prog.get_bind_apply] at h
  by_cases hlow : b.level < f.lowestLevel
  · rw [if_pos hlow] at h
    cases h
    exact .ignored (Or.inl hlow)
  rw [if_neg hlow] at h
  by_cases hn : f.getVertex b.id = none
  · obtain ⟨c, hc, hid, hempty, hst⟩ := heap_place hf hn
    unfold place at hc
    dsimp only at h
    rw [Prog.set_bind_apply, hc] at h
    dsimp only at h
    rw [hempty, if_neg (by simp), Prog.set_bind_apply] at h
    change registerWithParent (f.place b) (f.stow b) = _ at h
    unfold registerWithParent at h
    rw [Prog.get_bind_apply, hst] at h
    dsimp only [Option.bind_some] at h
    rw [lowestLevel_stow] at h
    by_cases hroot : c.level ≤ f.lowestLevel
    · rw [if_pos hroot] at h
      cases h
      exact .root (Nat.not_lt.1 hlow) hn hst (Or.inl hroot)
    rw [if_neg hroot] at h
    cases hpar : b.parent with
    | none =>
      rw [hpar] at h
      cases h
    | some pr =>
      obtain ⟨y, m⟩ := pr
      rw [hpar] at h
      dsimp only at h
      by_cases hm : m < f.lowestLevel
      · rw [if_pos hm] at h
        cases h
        exact .root (Nat.not_lt.1 hlow) hn hst (Or.inr ⟨y, m, hpar, hm⟩)
      · rw [if_neg hm] at h
        cases h
        exact .child (Nat.not_lt.1 hlow) hn hst (Nat.not_le.1 hroot) hpar (Nat.not_lt.1 hm)
  · -- the container is FULL
    obtain ⟨a, ha⟩ := Option.ne_none_iff_exists'.1 hn
    simp only [getVertex, Option.bind_eq_bind, Option.bind_eq_some_iff] at ha
    obtain ⟨q, hq, c, hc, hv⟩ := ha
    have hgc : f.getOrCreateVertexContainer b.id b.level = (q, f) := by
      unfold getOrCreateVertexContainer
      rw [hq]
    rw [hgc] at h
    dsimp only at h
    rw [Prog.set_bind_apply, hc] at h
    dsimp only at h
    rw [hv, if_pos Option.isSome_some] at h
    cases h
    exact .ignored (Or.inr hn)

/-! ### The invariant -/

/-- The indices agree, no container is listed twice at a level, and child lists hold FULL containers whose
block declares the container as its parent. -/
structure Orderly (f : LevelledForest) : Prop extends Sound f where
  nodup : ∀ l, (f.atLevel l).Nodup
  fostered : ∀ (p : ℕ) (c : VertexContainer), f.heap[p]? = some c → ∀ q ∈ c.children,
    ∃ (d : VertexContainer) (b : Block) (l : ℕ), f.heap[q]? = some d ∧ d.vertex = some b ∧
      b.parent = some (c.id, l)

theorem orderly_new : new.Orderly where
  toSound := sound_new
  nodup := fun l => by simp [new, atLevel]
  fostered := fun p c h => by simp [new] at h

theorem atLevel_getOrCreate (f : LevelledForest) (x l m : ℕ) :
    (f.getOrCreateVertexContainer x l).2.atLevel m =
      if f.vertices.lookup x = none ∧ m = l then f.atLevel m ++ [f.heap.length] else f.atLevel m := by
  unfold getOrCreateVertexContainer
  cases f.vertices.lookup x with
  | some p => simp
  | none =>
    by_cases hm : m = l
    · subst hm
      simp [atLevel]
    · simp [atLevel, AList.lookup_insert_ne hm, hm]

theorem Orderly.getOrCreate (h : f.Orderly) (x : ℕ) (hlow : f.lowestLevel ≤ l) :
    (f.getOrCreateVertexContainer x l).2.Orderly where
  toSound := h.toSound.getOrCreate x hlow
  nodup := fun m => by
    rw [atLevel_getOrCreate]
    split_ifs with hm
    · -- the new pointer is beyond the heap, and those listed are not
      refine List.nodup_append.2 ⟨h.nodup m, List.nodup_singleton _, fun p hp q hq => ?_⟩
      obtain ⟨c, hc, -⟩ := h.shelved m p hp
      have hlt : p < f.heap.length := (List.getElem?_eq_some_iff.1 hc).1
      rw [List.mem_singleton.1 hq]
      omega
    · exact h.nodup m
  fostered := fun p c hc q hq => by
    rcases heap_getOrCreate_cases hc with hc | rfl
    · obtain ⟨d, b, m, hd, hrest⟩ := h.fostered p c hc q hq
      exact ⟨d, b, m, heap_getOrCreate_of_some hd x l, hrest⟩
    · cases hq

/-- A block goes into an EMPTY container, which is in no child list. -/
theorem Orderly.stow (h : f.Orderly) (hlow : f.lowestLevel ≤ b.level) (hn : f.getVertex b.id = none) :
    (f.stow b).Orderly := by
  have h₁ := h.getOrCreate b.id hlow
  obtain ⟨c, hc, -, hempty, -⟩ := heap_place h.indexed.wf hn
  constructor
  · refine h₁.toSound.modifyAt (lookup_getOrCreate b.id b.level) (fun _ => ⟨rfl, rfl⟩) ?_
    intro d a ha
    cases ha
    exact Or.inr rfl
  · exact h₁.nodup
  · intro p d hd q hq
    have hfost : ∃ e a m, (f.getOrCreateVertexContainer b.id b.level).2.heap[q]? = some e ∧
        e.vertex = some a ∧ a.parent = some (d.id, m) := by
      rcases heap_stow_cases hd with ⟨-, -, c', hc', rfl⟩ | ⟨-, hd⟩
      · exact h₁.fostered p c' hc' q hq
      · exact h₁.fostered p d hd q hq
    obtain ⟨e, a, m, he, ha, hpar⟩ := hfost
    have hne : q ≠ f.place b := by
      rintro rfl
      rw [hc] at he
      cases he
      rw [hempty] at ha
      cases ha
    refine ⟨e, a, m, ?_, ha, hpar⟩
    rw [LevelledForest.stow, heap_modifyAt, if_neg (Ne.symm hne), he]

/-- A FULL container joins the child list of the container that its block declares as parent. -/
theorem Orderly.adopt (h : f.Orderly) (hlow : f.lowestLevel ≤ l) {c : VertexContainer}
    (hc : f.heap[p]? = some c) (hb : c.vertex = some b) {m : ℕ} (hpar : b.parent = some (x, m)) :
    (f.adopt p x l).Orderly := by
  have h₁ := h.getOrCreate x hlow
  obtain ⟨d, hd, hid⟩ := h₁.indexed.wf x _ (lookup_getOrCreate x l)
  have hkeep : ∀ (q : ℕ) (e : VertexContainer) (a : Block),
      (f.getOrCreateVertexContainer x l).2.heap[q]? = some e → e.vertex = some a →
      ∃ e' : VertexContainer, (f.adopt p x l).heap[q]? = some e' ∧ e'.vertex = some a := by
    intro q e a he ha
    rw [LevelledForest.adopt, heap_modifyAt, he]
    split_ifs
    · exact ⟨_, rfl, ha⟩
    · exact ⟨e, rfl, ha⟩
  constructor
  · exact h₁.toSound.modifyAt (lookup_getOrCreate x l) (fun _ => ⟨rfl, rfl⟩) fun _ _ ha => Or.inl ha
  · exact h₁.nodup
  · intro q e he r hr
    obtain ⟨e', he', hid', -, -, hch⟩ := heap_adopt_cases he
    have hcase : r ∈ e'.children ∨ r = p ∧ e.id = x := by
      rcases hch with hch | ⟨rfl, hch⟩
      · exact Or.inl (hch ▸ hr)
      · rw [hch, List.mem_append, List.mem_singleton] at hr
        rw [hd] at he'
        cases he'
        exact hr.imp_right fun hr => ⟨hr, hid'.trans hid⟩
    rcases hcase with hr | ⟨rfl, hx⟩
    · obtain ⟨d', a, k, hd', ha, hpa⟩ := h₁.fostered q e' he' r hr
      obtain ⟨d'', hd'', ha''⟩ := hkeep r d' a hd' ha
      exact ⟨d'', a, k, hd'', ha'', hid' ▸ hpa⟩
    · obtain ⟨d'', hd'', ha''⟩ := hkeep r c b (heap_getOrCreate_of_some hc x l) hb
      exact ⟨d'', b, m, hd'', ha'', hx ▸ hpar⟩

/-- **`AddVertex`** keeps the representation. -/
theorem Orderly.addVertex (h : f.Orderly) (hr : LevelledForest.addVertex b f = .ok () t) : t.Orderly := by
  cases addVertex_cases h.indexed.wf hr with
  | ignored => exact h
  | root hlow hn => exact h.stow hlow hn
  | child hlow hn hc _ hp hm =>
    obtain ⟨c, -, -, -, hc'⟩ := heap_place h.indexed.wf hn
    refine (h.stow hlow hn).adopt ?_ hc' rfl hp
    rw [lowestLevel_stow]
    exact hm

/-! ### Pruning -/

theorem atLevel_pruneLevels (committed ls : List ℕ) (m : ℕ) :
    (pruneLevels committed ls f).2.atLevel m = if m ∈ ls then [] else f.atLevel m := by
  induction ls generalizing f with
  | nil => simp [pruneLevels]
  | cons l ls ih =>
    show (pruneLevels committed ls (f.pruneLevel committed l).2).2.atLevel m = _
    rw [ih]
    by_cases hm : m = l
    · subst hm
      simp [pruneLevel, atLevel]
    · simp [pruneLevel, atLevel, AList.lookup_erase_ne hm, hm]

/-- **`PruneUpToLevel`** keeps the representation. -/
theorem Orderly.pruneUpToLevel (h : f.Orderly) {r : Option (List Block × ℕ)}
    (hr : LevelledForest.pruneUpToLevel l f = .ok r t) : t.Orderly ∧ f.lowestLevel ≤ t.lowestLevel := by
  have hcut := h.toSound.pruneUpToLevel hr
  refine ⟨⟨hcut.sound, fun m => ?_, hcut.heap ▸ h.fostered⟩, hcut.lowest ▸ le_max_left _ _⟩
  rcases pruneUpToLevel_cases hr with ⟨-, -, rfl⟩ | ⟨committed, -, -, -, rfl⟩
  · exact h.nodup m
  · show (atLevel (pruneLevels _ _ f).2 m).Nodup
    rw [atLevel_pruneLevels]
    split_ifs
    · exact List.nodup_nil
    · exact h.nodup m

/-- The number of containers below a level. -/
def containersBelow (f : LevelledForest) (l : ℕ) : ℕ :=
  f.vertices.keys.countP fun x => decide (∃ m < l, f.FiledAt x m)

/-- The second loop counts the containers of the levels. -/
theorem pruneLevels_count (committed : List ℕ) {ls : List ℕ} (hls : ls.Nodup) :
    (pruneLevels committed ls f).1.2 = (ls.flatMap f.atLevel).length := by
  induction ls generalizing f with
  | nil => rfl
  | cons l ls ih =>
    obtain ⟨hl, hls⟩ := List.nodup_cons.1 hls
    have hat : ∀ m ∈ ls, (f.pruneLevel committed l).2.atLevel m = f.atLevel m := by
      intro m hm
      have hne : m ≠ l := ne_of_mem_of_not_mem hm hl
      simp [pruneLevel, atLevel, AList.lookup_erase_ne hne]
    show (f.atLevel l).length + (pruneLevels committed ls (f.pruneLevel committed l).2).1.2 = _
    rw [ih hls, List.flatMap_cons, List.length_append, List.flatMap_congr hat]

/-- **Every container below the level is pruned, and counted once.** -/
theorem Orderly.pruned_eq (h : f.Orderly) {forked : List Block} {k : ℕ}
    (hr : LevelledForest.pruneUpToLevel l f = .ok (some (forked, k)) t) : k = f.containersBelow l := by
  rcases pruneUpToLevel_cases hr with ⟨-, hr, -⟩ | ⟨committed, hlow, -, hr, -⟩
  · cases hr
  have hk : k = ((List.range' f.lowestLevel (l - f.lowestLevel)).flatMap f.atLevel).length := by
    rw [← pruneLevels_count committed List.nodup_range', ← Option.some.inj hr]
  -- the same pointers, by level and by id
  have hperm : ((f.vertices.keys.filter fun x => decide (∃ m < l, f.FiledAt x m)).map
      fun x => (f.vertices.lookup x).getD 0).Perm
      ((List.range' f.lowestLevel (l - f.lowestLevel)).flatMap f.atLevel) := by
    refine (List.perm_ext_iff_of_nodup ?_ ?_).2 fun p => ?_
    · refine List.Nodup.map_on ?_ (f.vertices.keys_nodup.filter _)
      intro x hx y hy hxy
      obtain ⟨_, _, p, c, hp, hc, -⟩ := of_decide_eq_true (List.mem_filter.1 hx).2
      obtain ⟨_, _, q, d, hq, hd, -⟩ := of_decide_eq_true (List.mem_filter.1 hy).2
      rw [hp, hq, Option.getD_some, Option.getD_some] at hxy
      subst hxy
      obtain ⟨c', hc', rfl, -⟩ := h.indexed x p hp
      obtain ⟨d', hd', rfl, -⟩ := h.indexed y p hq
      rw [hc'] at hd'
      cases hd'
      rfl
    · refine List.nodup_flatMap.2 ⟨fun m _ => h.nodup m, List.Pairwise.imp ?_ List.nodup_range'⟩
      intro m m' hne p hp hp'
      obtain ⟨c, hc, hm, -⟩ := h.shelved m p hp
      obtain ⟨c', hc', hm', -⟩ := h.shelved m' p hp'
      rw [hc] at hc'
      cases hc'
      exact hne (hm.symm.trans hm')
    · simp only [List.mem_map, List.mem_filter, decide_eq_true_eq, List.mem_flatMap, List.mem_range'_1]
      constructor
      · rintro ⟨x, ⟨-, m, hm, q, c, hq, hc, rfl⟩, rfl⟩
        rw [hq, Option.getD_some]
        obtain ⟨c', hc', -, -, hmem, hle⟩ := h.indexed x q hq
        rw [hc] at hc'
        cases hc'
        exact ⟨c.level, by omega, hmem⟩
      · rintro ⟨m, hm, hp⟩
        obtain ⟨c, hc, rfl, hlk⟩ := h.shelved m p hp
        exact ⟨c.id, ⟨GoMap.mem_keys hlk, c.level, by omega, p, c, hlk, hc, rfl⟩, by rw [hlk]; rfl⟩
  rw [hk, ← hperm.length_eq, List.length_map, containersBelow, List.countP_eq_length_filter]

/-- Different blocks are in different containers. -/
theorem length_le_containersBelow {ids : List ℕ} (hnd : ids.Nodup)
    (h : ∀ x ∈ ids, ∃ m < l, f.FiledAt x m) : ids.length ≤ f.containersBelow l := by
  rw [containersBelow, List.countP_eq_length_filter]
  refine (hnd.subperm fun x hx => List.mem_filter.2 ⟨?_, decide_eq_true (h x hx)⟩).length_le
  obtain ⟨_, _, p, _, hp, _⟩ := h x hx
  exact GoMap.mem_keys hp

/-! ### Sequences of calls -/

/-- A call that changes a forest. -/
inductive ForestCall
  | addVertex (vertex : Block)
  | pruneUpToLevel (level : ℕ)

/-- One call; `AddVertex` has no result. -/
def forestCall : ForestCall → Go LevelledForest (Option (List Block × ℕ))
  | .addVertex vertex => do
    addVertex vertex
    return none
  | .pruneUpToLevel level => LevelledForest.pruneUpToLevel level

/-- One call after the other. -/
def forestCalls : List ForestCall → Go LevelledForest Unit
  | [] => return
  | c :: cs => do
    let _ ← forestCall c
    forestCalls cs

theorem Orderly.forestCall (h : f.Orderly) {c : ForestCall} {r : Option (List Block × ℕ)}
    (hr : forestCall c f = .ok r t) : t.Orderly ∧ f.lowestLevel ≤ t.lowestLevel := by
  cases c with
  | addVertex b =>
    obtain ⟨_, s, hb, hr⟩ := Prog.bind_eq_ok hr
    cases hr
    exact ⟨h.addVertex hb, Nat.le_of_eq (Prog.wp_ok (addVertex_spec h.indexed.wf b) hb).lowest.symm⟩
  | pruneUpToLevel l => exact h.pruneUpToLevel hr

theorem Orderly.forestCalls (h : f.Orderly) {cs : List ForestCall}
    (hr : forestCalls cs f = .ok () t) : t.Orderly := by
  induction cs generalizing f with
  | nil =>
    cases hr
    exact h
  | cons c cs ih =>
    obtain ⟨r, s, hc, hr⟩ := Prog.bind_eq_ok hr
    exact ih (h.forestCall hc).1 hr

/-- The index by id leads to the container of the id, which its level lists once; a level lists indexed
containers of this level; no indexed container is below the lowest level; child lists hold FULL containers
whose block declares the container's id as its parent. -/
structure Represented (f : LevelledForest) : Prop where
  byID : ∀ x p, f.vertices.lookup x = some p →
    ∃ c, f.heap[p]? = some c ∧ c.id = x ∧ (f.atLevel c.level).count p = 1
  byLevel : ∀ l, ∀ p ∈ f.atLevel l,
    ∃ c, f.heap[p]? = some c ∧ c.level = l ∧ f.vertices.lookup c.id = some p
  lowest : ∀ (x p : ℕ) (c : VertexContainer), f.vertices.lookup x = some p → f.heap[p]? = some c →
    f.lowestLevel ≤ c.level
  children : ∀ (x p : ℕ) (c : VertexContainer), f.vertices.lookup x = some p → f.heap[p]? = some c →
    ∀ q ∈ c.children, ∃ d b l, f.heap[q]? = some d ∧ d.vertex = some b ∧ b.parent = some (x, l)

theorem Orderly.represented (h : f.Orderly) : f.Represented where
  byID := fun x p hp => by
    obtain ⟨c, hc, hid, -, hmem, -⟩ := h.indexed x p hp
    exact ⟨c, hc, hid, List.count_eq_one_of_mem (h.nodup _) hmem⟩
  byLevel := h.shelved
  lowest := fun x p c hp hc => by
    obtain ⟨c', hc', -, -, -, hle⟩ := h.indexed x p hp
    rw [hc] at hc'
    cases hc'
    exact hle
  children := fun x p c hp hc q hq => by
    obtain ⟨c', hc', rfl, -⟩ := h.indexed x p hp
    rw [hc] at hc'
    cases hc'
    exact h.fostered p c hc q hq

/-- **The representation invariant** holds after any sequence of `AddVertex` and `PruneUpToLevel` that
returns, and no call lowers the lowest level. -/
theorem forest_represented (cs : List ForestCall) (f : LevelledForest)
    (hrun : forestCalls cs new = .ok () f) :
    f.Represented ∧ ∀ c r t, forestCall c f = .ok r t → f.lowestLevel ≤ t.lowestLevel :=
  have h := orderly_new.forestCalls hrun
  ⟨h.represented, fun _ _ _ hc => (h.forestCall hc).2⟩

/-- A block that carries nothing but its place in the forest. -/
def bareBlock (id : ℕ) (view : ℤ) (prevID : ℕ) (qcView : ℤ) : Block :=
  ⟨view, some ⟨"", qcView, prevID, [], [], []⟩, "", [], prevID, [], id, none⟩

/-- A child comes before its parent, another child after it, and the parent's level is pruned. -/
theorem forest_represented_childFirst :
    ∃ f, forestCalls [.addVertex (bareBlock 3 3 2 2), .addVertex (bareBlock 2 2 1 1),
        .addVertex (bareBlock 4 4 2 2), .pruneUpToLevel 3] new = .ok () f ∧
      f.lowestLevel = 3 ∧ f.Represented := by
  have hsome : Prog.passes (forestCalls [.addVertex (bareBlock 3 3 2 2), .addVertex (bareBlock 2 2 1 1),
      .addVertex (bareBlock 4 4 2 2), .pruneUpToLevel 3]) (fun _ f => decide (f.lowestLevel = 3)) new = true := by
    decide_cbv
  obtain ⟨_, f, hrun, hlow⟩ := Prog.exists_ok_of_passes hsome
  exact ⟨f, hrun, of_decide_eq_true hlow, (forest_represented _ f hrun).1⟩

end LevelledForest

end Bamboo
