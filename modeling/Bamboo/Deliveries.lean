import Bamboo.Truthful
import Bamboo.Universe

/-!
# The order in which blocks are added

A child that comes before its parent makes a placeholder for it, and a parent that comes first waits for its
children.  What the forest holds in the end is a function of the set of blocks that were added, up to the
order within its lists.

* `contents`, `containersAt`, `childrenOf`: what there is to see of a container, those of a level, and the
  children of one;
* `Coherent`: a set of blocks that agree about the levels of their parents;
* `Holds`: the forest holds the given blocks, and nothing else;
* `delivery_order_irrelevant`: two sequences of additions of the same blocks end in the same forest.
-/

namespace Bamboo

namespace LevelledForest

variable {f t : LevelledForest} {b : Block} {x l p q : ℕ}

/-! ### Containers and their children -/

/-- The id and the block of a container. -/
def contents (f : LevelledForest) (p : ℕ) : Option (ℕ × Option Block) :=
  f.heap[p]?.map fun c => (c.id, c.vertex)

/-- The containers of a level. -/
def containersAt (f : LevelledForest) (l : ℕ) : List (ℕ × Option Block) :=
  (f.atLevel l).filterMap f.contents

/-- The pointers to the children of the container of an id. -/
def childPointers (f : LevelledForest) (x : ℕ) : List ℕ :=
  (((f.vertices.lookup x).bind (f.heap[·]?)).map VertexContainer.children).getD []

/-- The children of the container of an id. -/
def childrenOf (f : LevelledForest) (x : ℕ) : List (ℕ × Option Block) :=
  (f.childPointers x).filterMap f.contents

theorem contents_getOrCreate {v : ℕ × Option Block} (h : f.contents q = some v) (x l : ℕ) :
    (f.getOrCreateVertexContainer x l).2.contents q = some v := by
  obtain ⟨c, hc, rfl⟩ := Option.map_eq_some_iff.1 h
  rw [contents, heap_getOrCreate_of_some hc x l]
  rfl

theorem contents_adopt {v : ℕ × Option Block} (h : f.contents q = some v) (p x l : ℕ) :
    (f.adopt p x l).contents q = some v := by
  obtain ⟨c, hc, rfl⟩ := Option.map_eq_some_iff.1 (contents_getOrCreate h x l)
  rw [contents, adopt, heap_modifyAt, hc]
  split_ifs <;> rfl

/-- A FULL container stays as it is when a block is stowed. -/
theorem contents_stow (hf : f.WF) (hn : f.getVertex b.id = none) {v : Block} {y : ℕ}
    (h : f.contents q = some (y, some v)) : (f.stow b).contents q = some (y, some v) := by
  obtain ⟨c, hc, hv⟩ := Option.map_eq_some_iff.1 (contents_getOrCreate h b.id b.level)
  obtain ⟨d, hd, -, hempty, -⟩ := heap_place hf hn
  rw [contents, stow, heap_modifyAt, if_neg, hc, Option.map_some, hv]
  rintro rfl
  rw [hd] at hc
  cases hc
  rw [hempty] at hv
  cases hv

theorem contents_place (hf : f.WF) (hn : f.getVertex b.id = none) :
    (f.stow b).contents (f.place b) = some (b.id, some b) := by
  obtain ⟨d, -, hid, -, hst⟩ := heap_place hf hn
  rw [contents, hst, ← hid]
  rfl

/-- A new container has no children. -/
theorem childPointers_getOrCreate (hf : f.WF) (x l y : ℕ) :
    (f.getOrCreateVertexContainer x l).2.childPointers y = f.childPointers y := by
  unfold getOrCreateVertexContainer
  cases hx : f.vertices.lookup x with
  | some p => rfl
  | none =>
    unfold childPointers
    by_cases hy : y = x
    · subst hy
      rw [AList.lookup_insert, hx]
      simp
    · rw [AList.lookup_insert_ne hy]
      cases hp : f.vertices.lookup y with
      | none => rfl
      | some p =>
        obtain ⟨c, hc, -⟩ := hf y p hp
        simp only [Option.bind_some, List.getElem?_append_left (List.getElem?_eq_some_iff.1 hc).1]

/-- Writing to the container of `x` changes the child list of `x` only. -/
theorem childPointers_modifyAt (hf : f.WF) (hp : f.vertices.lookup x = some p)
    (g : VertexContainer → VertexContainer) (y : ℕ) :
    (f.modifyAt p g).childPointers y =
      if y = x then ((f.heap[p]?.map g).map VertexContainer.children).getD [] else f.childPointers y := by
  unfold childPointers
  change (((f.vertices.lookup y).bind ((f.modifyAt p g).heap[·]?)).map _).getD [] = _
  by_cases hy : y = x
  · subst hy
    rw [hp, if_pos rfl, Option.bind_some, heap_modifyAt, if_pos rfl]
  · rw [if_neg hy]
    cases hq : f.vertices.lookup y with
    | none => rfl
    | some q =>
      rw [Option.bind_some, heap_modifyAt, if_neg]
      · rfl
      · rintro rfl
        obtain ⟨c, hc, hid⟩ := hf y p hq
        obtain ⟨c', hc', hid'⟩ := hf x p hp
        rw [hc] at hc'
        cases hc'
        exact hy (hid.symm.trans hid')

theorem childPointers_stow (hf : f.WF) (b : Block) (y : ℕ) :
    (f.stow b).childPointers y = f.childPointers y := by
  have hlk := lookup_getOrCreate (f := f) b.id b.level
  rw [stow, place, childPointers_modifyAt (wf_getOrCreate hf b.id b.level) hlk,
    ← childPointers_getOrCreate hf b.id b.level y]
  split_ifs with hy
  · subst hy
    rw [childPointers, hlk, Option.bind_some, Option.map_map]
    rfl
  · rfl

theorem childPointers_adopt (hf : f.WF) (p x l y : ℕ) :
    (f.adopt p x l).childPointers y = if y = x then f.childPointers y ++ [p] else f.childPointers y := by
  have hlk := lookup_getOrCreate (f := f) x l
  obtain ⟨c, hc, -⟩ := wf_getOrCreate hf x l x _ hlk
  rw [adopt, childPointers_modifyAt (wf_getOrCreate hf x l) hlk, ← childPointers_getOrCreate hf x l y]
  split_ifs with hy
  · subst hy
    rw [childPointers, hlk, Option.bind_some, hc]
    rfl
  · rfl

/-- Children are FULL. -/
theorem Orderly.contents_child (h : f.Orderly) (hq : q ∈ f.childPointers x) :
    ∃ y v, f.contents q = some (y, some v) := by
  unfold childPointers at hq
  cases hp : f.vertices.lookup x with
  | none =>
    rw [hp] at hq
    cases hq
  | some p =>
    obtain ⟨c, hc, -⟩ := h.indexed x p hp
    rw [hp, Option.bind_some, hc] at hq
    obtain ⟨d, v, _, hd, hv, -⟩ := h.fostered p c hc q hq
    exact ⟨d.id, v, by rw [contents, hd, Option.map_some, hv]⟩

/-- **The children after an addition**: the new block is a child of its parent. -/
theorem Orderly.childrenOf_add (h : f.Orderly) (hlow : f.lowestLevel ≤ b.level)
    (hn : f.getVertex b.id = none) (x l y : ℕ) :
    ((f.stow b).adopt (f.place b) x l).childrenOf y =
      if y = x then f.childrenOf y ++ [(b.id, some b)] else f.childrenOf y := by
  have hwf := (h.stow hlow hn).indexed.wf
  have hold : (f.childPointers y).filterMap ((f.stow b).adopt (f.place b) x l).contents = f.childrenOf y := by
    refine List.filterMap_congr fun q hq => ?_
    obtain ⟨z, v, hv⟩ := h.contents_child hq
    rw [hv, contents_adopt (contents_stow h.indexed.wf hn hv)]
  have hnew := contents_adopt (contents_place h.indexed.wf hn) (f.place b) x l
  rw [childrenOf, childPointers_adopt hwf, childPointers_stow h.indexed.wf]
  split_ifs
  · rw [List.filterMap_append, hold]
    simp [hnew]
  · exact hold

/-- The containers of a level, by their id. -/
theorem Orderly.mem_containersAt (h : f.Orderly) {v : ℕ × Option Block} :
    v ∈ f.containersAt l ↔ f.FiledAt v.1 l ∧ f.getVertex v.1 = v.2 := by
  unfold containersAt contents
  rw [List.mem_filterMap]
  constructor
  · rintro ⟨p, hp, hv⟩
    obtain ⟨c, hc, rfl⟩ := Option.map_eq_some_iff.1 hv
    obtain ⟨c', hc', hl, hlk⟩ := h.shelved l p hp
    rw [hc] at hc'
    cases hc'
    refine ⟨⟨p, c, hlk, hc, hl⟩, ?_⟩
    rw [getVertex, hlk]
    simp [hc]
  · obtain ⟨y, v⟩ := v
    rintro ⟨⟨p, c, hlk, hc, rfl⟩, hv⟩
    obtain ⟨c', hc', rfl, -, hmem, -⟩ := h.indexed y p hlk
    rw [hc] at hc'
    cases hc'
    refine ⟨p, hmem, ?_⟩
    dsimp only at hv
    rw [getVertex, hlk] at hv
    simp only [Option.bind_eq_bind, Option.bind_some, hc] at hv
    rw [hc, Option.map_some, hv]

theorem Orderly.nodup_containersAt (h : f.Orderly) (l : ℕ) : (f.containersAt l).Nodup := by
  refine List.pairwise_filterMap.2 ((h.nodup l).imp_of_mem fun {p q} hp hq hne v hv v' hv' heq => hne ?_)
  -- two containers with one id are the one that is indexed under it
  subst heq
  obtain ⟨c, hc, rfl⟩ := Option.map_eq_some_iff.1 hv
  obtain ⟨d, hd, hdc⟩ := Option.map_eq_some_iff.1 hv'
  obtain ⟨c', hc', -, hlk⟩ := h.shelved l p hp
  obtain ⟨d', hd', -, hlk'⟩ := h.shelved l q hq
  rw [hc] at hc'
  cases hc'
  rw [hd] at hd'
  cases hd'
  rw [(Prod.mk.inj hdc).1, hlk] at hlk'
  exact Option.some.inj hlk'

/-! ### Sets of blocks -/

/-- The id and level are those of a block, or declared for a parent. -/
def Mentioned (B : Set Block) (x l : ℕ) : Prop :=
  ∃ b ∈ B, b.id = x ∧ b.level = l ∨ b.parent = some (x, l)

end LevelledForest

open LevelledForest

/-- A universe in which the blocks also agree about the views of parents that are not in it. -/
structure Coherent (U : Set Block) : Prop extends Universe U where
  outside : ∀ b ∈ U, ∀ b' ∈ U, b.prevID = b'.prevID → (∀ p ∈ U, p.id ≠ b.prevID) →
    b.qc.map QC.view = b'.qc.map QC.view

variable {U B : Set Block} {x l m : ℕ}

theorem Universe.levelOf_mentioned (h : Universe U) (hB : B ⊆ U) (hx : Mentioned B x l) : LevelOf U x l := by
  obtain ⟨b, hb, ⟨rfl, rfl⟩ | hpar⟩ := hx
  · exact h.levelOf_self (hB hb)
  · exact h.levelOf_parent (hB hb) hpar

/-- All say the same about the level of an id. -/
theorem Coherent.mentioned_unique (h : Coherent U) (hl : Mentioned U x l) (hm : Mentioned U x m) : l = m := by
  by_cases hin : ∃ p ∈ U, p.id = x
  · obtain ⟨p, hp, hid⟩ := hin
    rw [← h.levelOf_mentioned subset_rfl hl p hp hid, ← h.levelOf_mentioned subset_rfl hm p hp hid]
  · obtain ⟨b, hb, ⟨hid, -⟩ | hpar⟩ := hl
    · exact absurd ⟨b, hb, hid⟩ hin
    obtain ⟨b', hb', ⟨hid, -⟩ | hpar'⟩ := hm
    · exact absurd ⟨b', hb', hid⟩ hin
    have hview := h.outside b hb b' hb' ((prevID_of_parent hpar).trans (prevID_of_parent hpar').symm)
      fun p hp hid => hin ⟨p, hp, hid.trans (prevID_of_parent hpar)⟩
    obtain ⟨qc, hqc, he⟩ := Option.map_eq_some_iff.1 hpar
    obtain ⟨qc', hqc', he'⟩ := Option.map_eq_some_iff.1 hpar'
    rw [hqc, hqc', Option.map_some, Option.map_some, Option.some.injEq] at hview
    rw [← (Prod.mk.inj he).2, ← (Prod.mk.inj he').2, hview]

namespace LevelledForest

variable {f t : LevelledForest} {b : Block}

/-- The forest holds the blocks of `B` and nothing else: it has containers for them and for their parents, and
the children of an id are the blocks that name it. -/
structure Holds (B : Set Block) (f : LevelledForest) : Prop where
  orderly : f.Orderly
  lowest : f.lowestLevel = 0
  stored : ∀ x b, f.getVertex x = some b ↔ b ∈ B ∧ b.id = x
  filed : ∀ x l, f.FiledAt x l ↔ Mentioned B x l
  nodup : ∀ x, (f.childrenOf x).Nodup
  children : ∀ x v, v ∈ f.childrenOf x ↔ ∃ b ∈ B, b.prevID = x ∧ v = (b.id, some b)

theorem holds_new : new.Holds ∅ where
  orderly := orderly_new
  lowest := rfl
  stored := fun x b => by simp [new, getVertex]
  filed := fun x l => by simp [new, FiledAt, Mentioned]
  nodup := fun x => by simp [new, childrenOf, childPointers]
  children := fun x v => by simp [new, childrenOf, childPointers]

theorem Holds.stocked (h : f.Holds B) (hU : Universe U) (hB : B ⊆ U) : f.Stocked U where
  orderly := h.orderly
  indexed := fun x p hp => by
    obtain ⟨c, hc, hid, -, hrest⟩ := h.orderly.indexed x p hp
    exact ⟨c, hc, hid, hU.levelOf_mentioned hB ((h.filed x _).1 ⟨p, c, hp, hc, rfl⟩), hrest⟩
  stored := fun x b hb => hB ((h.stored x b).1 hb).1

/-- A new block of the universe is registered with its parent. -/
theorem Holds.addVertex_eq (h : f.Holds B) (hU : Universe U) (hB : B ⊆ U) (hb : b ∈ U)
    (hn : f.getVertex b.id = none) (hr : LevelledForest.addVertex b f = .ok () t) :
    ∃ m, b.parent = some (b.prevID, m) ∧ t = (f.stow b).adopt (f.place b) b.prevID m := by
  have hst := (h.stocked hU hB).addVertex hU hb hr
  cases addVertex_cases h.orderly.indexed.wf hr with
  | ignored hcase =>
    rcases hcase with hlt | hne
    · rw [h.lowest] at hlt
      exact absurd hlt (Nat.not_lt_zero _)
    · exact absurd hn hne
  | @root c _ _ hc hcase =>
    rw [h.lowest] at hcase
    rcases hcase with hle | ⟨_, _, _, hlt⟩
    · -- the block is above level 0, and so is its container
      have hstored : (f.stow b).getVertex b.id = some b := by
        rw [getVertex, lookup_stow]
        obtain ⟨d, -, -, -, hd⟩ := heap_place h.orderly.indexed.wf hn
        simp [hd]
      have hlevel := (hst.filedAt hstored).2.1.unique ⟨_, c, lookup_stow f b, hc, rfl⟩
      have h1 := hU.one_le_view hb
      have h2 := hU.level_eq hb
      omega
    · exact absurd hlt (Nat.not_lt_zero _)
  | @child c y m _ _ _ _ hp _ =>
    obtain rfl := prevID_of_parent hp
    exact ⟨m, hp, rfl⟩

theorem Holds.unpruned (h : f.Holds B) : f.Unpruned where
  toSound := h.orderly.toSound
  lowest := h.lowest
  declared := fun x l hx hn => by
    obtain ⟨b, hb, ⟨hid, -⟩ | hpar⟩ := (h.filed x l).1 hx
    · rw [(h.stored x b).2 ⟨hb, hid⟩] at hn
      cases hn
    · exact ⟨b.id, b, (h.stored b.id b).2 ⟨hb, rfl⟩, hpar⟩

/-- **One addition.** -/
theorem Holds.addVertex (h : f.Holds B) (hU : Coherent U) (hB : B ⊆ U) (hb : b ∈ U)
    (hr : LevelledForest.addVertex b f = .ok () t) : t.Holds (insert b B) := by
  by_cases hn : f.getVertex b.id = none
  swap
  · -- the block is one of those held
    obtain ⟨b', hb'⟩ := Option.ne_none_iff_exists'.1 hn
    obtain ⟨hmem, hid⟩ := (h.stored b.id b').1 hb'
    obtain rfl := hU.id b' (hB hmem) b hb hid
    rw [addVertex_stored h.orderly.indexed.wf hn hr, Set.insert_eq_of_mem hmem]
    exact h
  have hnot : b ∉ B := fun hmem => by
    rw [(h.stored b.id b).2 ⟨hmem, rfl⟩] at hn
    cases hn
  have hB' : insert b B ⊆ U := Set.insert_subset hb hB
  have hstocked := (h.stocked hU.toUniverse hB).addVertex hU.toUniverse hb hr
  have hst : ∀ x w, t.getVertex x = some w ↔ w ∈ insert b B ∧ w.id = x := by
    intro x w
    rw [h.unpruned.stored_addVertex hn hr, h.stored, Set.mem_insert_iff]
    constructor
    · rintro (⟨hw, hid⟩ | ⟨rfl, rfl⟩)
      · exact ⟨Or.inr hw, hid⟩
      · exact ⟨Or.inl rfl, rfl⟩
    · rintro ⟨rfl | hw, hid⟩
      · exact Or.inr ⟨hid.symm, rfl⟩
      · exact Or.inl ⟨hw, hid⟩
  have hself : t.FiledAt b.id b.level :=
    (hstocked.filedAt ((hst b.id b).2 ⟨Set.mem_insert b B, rfl⟩)).2.1
  -- a container is mentioned
  have hment : ∀ x l, t.FiledAt x l → Mentioned (insert b B) x l := by
    intro x l hx
    rcases h.unpruned.filedAt_addVertex hr hx with hold | rfl | hpar
    · obtain ⟨w, hw, hcase⟩ := (h.filed x l).1 hold
      exact ⟨w, Set.mem_insert_of_mem b hw, hcase⟩
    · exact ⟨b, Set.mem_insert b B, Or.inl ⟨rfl, hself.unique hx⟩⟩
    · exact ⟨b, Set.mem_insert b B, Or.inr hpar⟩
  have hkeep := (Prog.wp_ok (h.orderly.toSound.addVertex b) hr).2.1
  obtain ⟨m, hpar, rfl⟩ := h.addVertex_eq hU.toUniverse hB hb hn hr
  have hlow : f.lowestLevel ≤ b.level := h.lowest ▸ Nat.zero_le _
  have hchildren := fun y => h.orderly.childrenOf_add hlow hn b.prevID m y
  refine ⟨hstocked.orderly, ?_, hst, fun x l => ⟨hment x l, ?_⟩, fun x => ?_, fun x v => ?_⟩
  · rw [lowestLevel_adopt, lowestLevel_stow, h.lowest]
  · rintro ⟨w, hw, hcase⟩
    rcases Set.mem_insert_iff.1 hw with rfl | hw
    · rcases hcase with ⟨rfl, rfl⟩ | hpar'
      · exact hself
      · -- the parent has a container, and there is only one level for it
        rw [hpar] at hpar'
        cases hpar'
        obtain ⟨c, hc, -⟩ := hstocked.orderly.indexed w.prevID _ (lookup_getOrCreate w.prevID m)
        have hfiled : ((f.stow w).adopt (f.place w) w.prevID m).FiledAt w.prevID c.level :=
          ⟨_, c, lookup_getOrCreate w.prevID m, hc, rfl⟩
        obtain ⟨v, hv, hvc⟩ := hment _ _ hfiled
        have hm := hU.mentioned_unique ⟨w, hb, Or.inr hpar⟩ ⟨v, hB' hv, hvc⟩
        rw [← hm] at hfiled
        exact hfiled
    · exact hkeep x l ((h.filed x l).2 ⟨w, hw, hcase⟩)
  · rw [hchildren]
    split_ifs
    · refine List.nodup_append.2 ⟨h.nodup x, List.nodup_singleton _, fun v hv v' hv' heq => ?_⟩
      obtain ⟨w, hw, -, hvw⟩ := (h.children x v).1 hv
      rw [heq, List.mem_singleton.1 hv', Prod.mk.injEq, Option.some.injEq] at hvw
      exact hnot (hvw.2 ▸ hw)
    · exact h.nodup x
  · rw [hchildren]
    constructor
    · intro hv
      have hcase : v ∈ f.childrenOf x ∨ x = b.prevID ∧ v = (b.id, some b) := by
        split_ifs at hv with hx
        · exact (List.mem_append.1 hv).imp_right fun hv => ⟨hx, List.mem_singleton.1 hv⟩
        · exact Or.inl hv
      rcases hcase with hv | ⟨rfl, rfl⟩
      · obtain ⟨w, hw, hrest⟩ := (h.children x v).1 hv
        exact ⟨w, Set.mem_insert_of_mem b hw, hrest⟩
      · exact ⟨b, Set.mem_insert b B, rfl, rfl⟩
    · rintro ⟨w, hw, rfl, rfl⟩
      rcases Set.mem_insert_iff.1 hw with rfl | hw
      · rw [if_pos rfl]
        exact List.mem_append_right _ (List.mem_singleton_self _)
      · have hold := (h.children w.prevID _).2 ⟨w, hw, rfl, rfl⟩
        split_ifs
        · exact List.mem_append_left _ hold
        · exact hold

/-- A block with a certificate can be added. -/
theorem addVertex_returns (hf : f.WF) (hqc : b.qc ≠ none) : ∃ t, LevelledForest.addVertex b f = .ok () t := by
  obtain ⟨_, t, ht, -⟩ := Prog.exists_ok_of_wp
    (Prog.wp_mono (addVertex_wp hf b) (fun _ _ h => h) fun _ hnone => hqc hnone)
  exact ⟨t, ht⟩

end LevelledForest

namespace BlockChain

variable {s t : BlockChain} {bs : List Block}

/-- The blocks of the list are added to the ones held, whatever their order. -/
theorem holds_calls (cf : Config) (hU : Coherent U) (hbs : ∀ b ∈ bs, b ∈ U) (hB : B ⊆ U) (hs : s.forrest.Holds B) :
    ∃ as t, calls cf (bs.map .addBlock) s = .ok as t ∧ t.forrest.Holds (B ∪ {b | b ∈ bs}) := by
  induction bs generalizing s B with
  | nil =>
    refine ⟨[], s, rfl, ?_⟩
    simpa using hs
  | cons b bs ih =>
    have hb := hbs b List.mem_cons_self
    obtain ⟨f, hf⟩ := addVertex_returns hs.orderly.indexed.wf (hU.cert hb)
    have hrun : BlockChain.addBlock b s = .ok () { s with forrest := f } := Prog.zoom_apply_ok hf
    obtain ⟨as, t, ht, hholds⟩ := ih (s := { s with forrest := f })
      (fun b' hb' => hbs b' (List.mem_cons_of_mem b hb')) (Set.insert_subset hb hB) (hs.addVertex hU hB hb hf)
    refine ⟨.block :: as, t, ?_, ?_⟩
    · show ((addBlock b >>= fun _ => pure Answer.block) >>= fun a => calls cf (bs.map .addBlock) >>= fun as =>
        pure (a :: as)) s = _
      rw [bind_assoc, Prog.bind_apply_ok hrun]
      show (calls cf (bs.map .addBlock) >>= fun as => pure (Answer.block :: as)) { s with forrest := f } = _
      rw [Prog.bind_apply_ok ht]
      rfl
    · have hset : B ∪ {b' | b' ∈ b :: bs} = insert b B ∪ {b' | b' ∈ bs} := by
        ext w
        simp only [Set.mem_union, Set.mem_ofPred_eq, List.mem_cons, Set.mem_insert_iff]
        tauto
      rw [hset]
      exact hholds

/-- The two block chains give the same answers, and their containers are the same up to order. -/
structure SameBlocks (s t : BlockChain) : Prop where
  byID : ∀ x, s.getBlockByID x = t.getBlockByID x
  parent : ∀ x, s.getParentBlock x = t.getParentBlock x
  levels : ∀ l, (s.forrest.containersAt l).Perm (t.forrest.containersAt l)
  children : ∀ x, (s.forrest.childrenOf x).Perm (t.forrest.childrenOf x)

/-- What is held determines the forest. -/
theorem sameBlocks_of_holds (hs : s.forrest.Holds B) (ht : t.forrest.Holds B) : SameBlocks s t := by
  have hstored : ∀ x, s.forrest.getVertex x = t.forrest.getVertex x := by
    intro x
    refine Option.ext fun w => ?_
    rw [hs.stored, ht.stored]
  constructor
  · exact hstored
  · intro x
    unfold getParentBlock
    rw [hstored]
    cases t.forrest.getVertex x with
    | none => rfl
    | some w => exact hstored w.prevID
  · intro l
    refine (List.perm_ext_iff_of_nodup (hs.orderly.nodup_containersAt l) (ht.orderly.nodup_containersAt l)).2
      fun v => ?_
    rw [hs.orderly.mem_containersAt, ht.orderly.mem_containersAt, hs.filed, ht.filed, hstored]
  · intro x
    refine (List.perm_ext_iff_of_nodup (hs.nodup x) (ht.nodup x)).2 fun v => ?_
    rw [hs.children, ht.children]

/-- **The forest does not depend on the order of delivery**: sequences of additions of the same coherent set of
blocks, with repetitions, return and end in the same forest. -/
theorem delivery_order_irrelevant (S : Finset Block) (hS : Coherent {b | b ∈ S}) (cf : Config) (n : ℕ)
    (bs bs' : List Block) (hbs : ∀ b, b ∈ bs ↔ b ∈ S) (hbs' : ∀ b, b ∈ bs' ↔ b ∈ S) :
    ∃ as t as' t', calls cf (bs.map .addBlock) (new n) = .ok as t ∧
      calls cf (bs'.map .addBlock) (new n) = .ok as' t' ∧ SameBlocks t t' := by
  have hnew : (new n).forrest.Holds ∅ := holds_new
  obtain ⟨as, t, hrun, ht⟩ := holds_calls cf hS (fun b hb => (hbs b).1 hb) (Set.empty_subset _) hnew
  obtain ⟨as', t', hrun', ht'⟩ := holds_calls cf hS (fun b hb => (hbs' b).1 hb) (Set.empty_subset _) hnew
  have hset : (∅ ∪ {b | b ∈ bs} : Set Block) = ∅ ∪ {b | b ∈ bs'} := by
    ext b
    simp only [Set.empty_union, Set.mem_ofPred_eq, hbs, hbs']
  rw [hset] at ht
  exact ⟨as, t, as', t', hrun, hrun', sameBlocks_of_holds ht ht'⟩

/-- Three blocks, of which two are children of the first. -/
def siblings : List Block := [bareBlock 1 1 0 0, bareBlock 2 2 1 1, bareBlock 3 3 1 1]

/-- The parent first, or the children first and one of them twice. -/
theorem delivery_order_irrelevant_siblings :
    ∃ as t as' t', calls (FourNodes.config fun _ => "1") (siblings.map .addBlock) (new 4) = .ok as t ∧
      calls (FourNodes.config fun _ => "1") ((bareBlock 3 3 1 1 :: siblings.reverse).map .addBlock) (new 4) =
        .ok as' t' ∧ SameBlocks t t' := by
  have hset : ({b | b ∈ siblings.toFinset} : Set Block) = {b | b ∈ siblings} := by
    ext b
    simp only [Set.mem_ofPred_eq, List.mem_toFinset]
  have hU : Universe {b | b ∈ siblings.toFinset} := by
    rw [hset]
    exact universe_of_test (by decide_cbv)
  refine delivery_order_irrelevant siblings.toFinset ⟨hU, ?_⟩ _ 4 siblings _ (fun b => ?_) fun b => ?_
  · rw [hset]
    exact (by decide : ∀ b ∈ siblings, ∀ b' ∈ siblings, b.prevID = b'.prevID →
      (∀ p ∈ siblings, p.id ≠ b.prevID) → b.qc.map QC.view = b'.qc.map QC.view)
  · rw [List.mem_toFinset]
  · rw [List.mem_toFinset, List.mem_cons, List.mem_reverse]
    exact ⟨fun h => h.elim (fun h => h ▸ by decide) fun h => h, Or.inr⟩

end BlockChain

end Bamboo
