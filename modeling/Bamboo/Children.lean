import Bamboo.Deliveries

/-!
# The children of a block

`GetChildren` walks over the child list of a container with an iterator that looks one element ahead and skips
EMPTY containers.  Containers are behind pointers: an id that is not in the index has none, and the lookup
dereferences nil, where the comment of `GetChildren` expects a zero value without children.

* `VertexIterator`, `getChildren`, `getChildrenBlocks`: the lookups;
* `getChildrenBlocks_eq`: what they return;
* `Brood`: the child lists and the stored blocks, in a forest of a universe;
* `children_exact_iff`: the lookup is exact where the id has a container, and aborts elsewhere.
-/

namespace Bamboo

namespace LevelledForest

variable {f t : LevelledForest} {b : Block} {x l p : ℕ}

/-! ### The iterator -/

/-- The vertex of the container behind a pointer. -/
def vertexAt (f : LevelledForest) (p : ℕ) : Option Block := f.heap[p]?.bind VertexContainer.vertex

/-- `VertexIterator`: pointers to containers, the index of the first one not looked at, and the vertex that is
returned next. -/
structure VertexIterator where
  data : List ℕ
  idx : ℕ := 0
  next : Option Block := none

/-- The loop of `preLoad`, over the pointers from the index on. -/
def preLoadLoop (f : LevelledForest) : List ℕ → ℕ → ℕ × Option Block
  | [], idx => (idx, none)
  | p :: ps, idx =>
    match f.vertexAt p with
    | some v => (idx + 1, some v)
    | none => preLoadLoop f ps (idx + 1)

namespace VertexIterator

variable (f : LevelledForest) (it : VertexIterator)

/-- `preLoad`. -/
def preLoad : VertexIterator :=
  let (idx, next) := f.preLoadLoop (it.data.drop it.idx) it.idx
  { it with idx := idx, next := next }

/-- `NextVertex`: the vertex, and the iterator after it. -/
def nextVertex : Option Block × VertexIterator := (it.next, it.preLoad f)

/-- `HasNext`. -/
def hasNext : Bool := it.next.isSome

/-- How many elements the iterator may still return. -/
def remaining : ℕ := it.data.length - it.idx + it.next.toList.length

/-- The vertices the iterator still returns. -/
def pending : List Block := it.next.toList ++ (it.data.drop it.idx).filterMap f.vertexAt

end VertexIterator

/-- `newVertexIterator`. -/
def newVertexIterator (f : LevelledForest) (vertexList : List ℕ) : VertexIterator :=
  VertexIterator.preLoad f { data := vertexList }

/-- The loop passes over EMPTY containers up to the first FULL one. -/
theorem preLoadLoop_spec (f : LevelledForest) (ps : List ℕ) (idx : ℕ) :
    ∃ k ≤ ps.length, (f.preLoadLoop ps idx).1 = idx + k ∧
      (f.preLoadLoop ps idx).2.toList.length ≤ k ∧
      ps.filterMap f.vertexAt = (f.preLoadLoop ps idx).2.toList ++ (ps.drop k).filterMap f.vertexAt ∧
      ((f.preLoadLoop ps idx).2 = none → ps.filterMap f.vertexAt = []) := by
  induction ps generalizing idx with
  | nil => exact ⟨0, Nat.le_refl _, rfl, Nat.le_refl _, rfl, fun _ => rfl⟩
  | cons p ps ih =>
    unfold preLoadLoop
    cases hp : f.vertexAt p with
    | some v => exact ⟨1, by simp, rfl, Nat.le_refl _, by simp [hp], fun h => by cases h⟩
    | none =>
      obtain ⟨k, hk, hidx, hlen, hmap⟩ := ih (idx + 1)
      dsimp only
      refine ⟨k + 1, Nat.succ_le_succ hk, by omega, by omega, ?_⟩
      rw [List.filterMap_cons_none hp, List.drop_succ_cons]
      exact hmap

namespace VertexIterator

theorem remaining_preLoad (f : LevelledForest) (it : VertexIterator) :
    (it.preLoad f).remaining ≤ it.data.length - it.idx := by
  obtain ⟨k, hk, hidx, hlen, -⟩ := preLoadLoop_spec f (it.data.drop it.idx) it.idx
  rw [List.length_drop] at hk
  show it.data.length - (f.preLoadLoop _ _).1 + (f.preLoadLoop _ _).2.toList.length ≤ _
  omega

theorem pending_preLoad (f : LevelledForest) (it : VertexIterator) :
    (it.preLoad f).pending f = (it.data.drop it.idx).filterMap f.vertexAt := by
  obtain ⟨k, -, hidx, -, hmap, -⟩ := preLoadLoop_spec f (it.data.drop it.idx) it.idx
  rw [hmap, List.drop_drop, ← hidx]
  rfl

/-- The loop of `GetChildrenBlocks`. -/
def collect (f : LevelledForest) (it : VertexIterator) (blocks : List Block) : List Block :=
  if it.hasNext then collect f (it.nextVertex f).2 (blocks ++ (it.nextVertex f).1.toList) else blocks
termination_by it.remaining
decreasing_by
  rename_i hnext
  refine Nat.lt_of_le_of_lt (remaining_preLoad f it) ?_
  obtain ⟨v, hv⟩ := Option.isSome_iff_exists.1 hnext
  simp [remaining, hv]

/-- An iterator without a next vertex has passed the last FULL container. -/
theorem pending_of_hasNext (f : LevelledForest) (it : VertexIterator) (h : ¬ (it.preLoad f).hasNext) :
    (it.data.drop it.idx).filterMap f.vertexAt = [] := by
  obtain ⟨-, -, -, -, -, hnone⟩ := preLoadLoop_spec f (it.data.drop it.idx) it.idx
  exact hnone (Option.not_isSome_iff_eq_none.1 h)

/-- **The loop returns the vertices of the FULL containers**, in the order of the list. -/
theorem collect_preLoad (f : LevelledForest) (it : VertexIterator) (blocks : List Block) :
    (it.preLoad f).collect f blocks = blocks ++ (it.data.drop it.idx).filterMap f.vertexAt := by
  induction hn : it.data.length - it.idx using Nat.strong_induction_on generalizing it blocks with
  | h n ih =>
    unfold collect
    split_ifs with hnext
    · -- the index moves past the vertex that is returned
      have hlt : (it.preLoad f).data.length - (it.preLoad f).idx < n := by
        have hle := remaining_preLoad f it
        obtain ⟨v, hv⟩ := Option.isSome_iff_exists.1 hnext
        simp only [remaining, hv, Option.toList_some, List.length_singleton] at hle
        omega
      show ((it.preLoad f).preLoad f).collect f (blocks ++ (it.preLoad f).next.toList) = _
      rw [ih _ hlt _ _ rfl, List.append_assoc, ← pending_preLoad f it]
      rfl
    · rw [pending_of_hasNext f it hnext, List.append_nil]

end VertexIterator

/-! ### The lookups -/

/-- The container of an id; the lookup in the index gives nil for an unknown one. -/
def container (f : LevelledForest) (id : ℕ) : Except Fault VertexContainer :=
  match (f.vertices.lookup id).bind (f.heap[·]?) with
  | some c => .ok c
  | none => .error .nilDereference

/-- `GetChildren`. -/
def getChildren (f : LevelledForest) (id : ℕ) : Except Fault VertexIterator := do
  let container ← f.container id
  return f.newVertexIterator container.children

end LevelledForest

/-- `GetChildrenBlocks`. -/
def BlockChain.getChildrenBlocks (bc : BlockChain) (id : ℕ) : Except Fault (List Block) := do
  let iterator ← bc.forrest.getChildren id
  return iterator.collect bc.forrest []

namespace LevelledForest

variable {f t : LevelledForest} {U : Set Block} {b : Block} {x l p : ℕ}

theorem container_of_some (hf : f.WF) (h : f.vertices.lookup x = some p) :
    ∃ c, f.container x = .ok c ∧ f.childPointers x = c.children := by
  obtain ⟨c, hc, -⟩ := hf x p h
  refine ⟨c, ?_, ?_⟩
  · rw [container, h, Option.bind_some, hc]
  · rw [childPointers, h, Option.bind_some, hc]
    rfl

/-- The blocks among the children of an id. -/
def childBlocks (f : LevelledForest) (x : ℕ) : List Block := (f.childrenOf x).filterMap Prod.snd

theorem childBlocks_eq (f : LevelledForest) (x : ℕ) :
    f.childBlocks x = (f.childPointers x).filterMap f.vertexAt := by
  rw [childBlocks, childrenOf, List.filterMap_filterMap]
  congr 1
  funext p
  unfold contents vertexAt
  cases f.heap[p]? with
  | none => rfl
  | some c => rfl

theorem getChildrenBlocks_eq {bc : BlockChain} (hf : bc.forrest.WF) (h : bc.forrest.vertices.lookup x = some p) :
    bc.getChildrenBlocks x = .ok (bc.forrest.childBlocks x) := by
  obtain ⟨c, hc, hch⟩ := container_of_some hf h
  unfold BlockChain.getChildrenBlocks getChildren
  rw [hc, childBlocks_eq, hch]
  exact congrArg Except.ok (VertexIterator.collect_preLoad bc.forrest { data := c.children } [])

/-- The lookup for an id that is not in the index aborts. -/
theorem getChildrenBlocks_of_none {bc : BlockChain} (h : bc.forrest.vertices.lookup x = none) :
    bc.getChildrenBlocks x = .error .nilDereference := by
  unfold BlockChain.getChildrenBlocks getChildren container
  rw [h]
  rfl

/-! ### Child lists and stored blocks -/

/-- The child lists of a forest of the universe: no repeats, children name the parent and are stored unless
pruned, stored blocks are listed with a parent that is not pruned, and a placeholder waits for the parent of a
stored block. -/
structure Brood (U : Set Block) (f : LevelledForest) : Prop where
  nodup : ∀ x, (f.childrenOf x).Nodup
  child : ∀ x v, v ∈ f.childrenOf x → ∃ b ∈ U, b.prevID = x ∧ v = (b.id, some b) ∧
    (f.getVertex b.id = some b ∨ b.level < f.lowestLevel)
  listed : ∀ b, f.getVertex b.id = some b → ∀ p ∈ U, p.id = b.prevID → f.lowestLevel ≤ p.level →
    (b.id, some b) ∈ f.childrenOf p.id
  awaited : ∀ x l, f.FiledAt x l → f.getVertex x = none →
    ∃ b, f.getVertex b.id = some b ∧ b.prevID = x ∧ l < b.level

theorem brood_new (U : Set Block) : new.Brood U where
  nodup := fun x => by simp [new, childrenOf, childPointers]
  child := fun x v hv => by simp [new, childrenOf, childPointers] at hv
  listed := fun b hb => by simp [new, getVertex] at hb
  awaited := fun x l ⟨p, c, hp, _⟩ => by simp [new] at hp

/-- An id without a container has no children. -/
theorem childrenOf_of_none (h : f.vertices.lookup x = none) : f.childrenOf x = [] := by
  simp [childrenOf, childPointers, h]

theorem PrunedTo.childrenOf (h : f.PrunedTo l t) (hx : t.vertices.lookup x = some p) :
    t.childrenOf x = f.childrenOf x := by
  unfold LevelledForest.childrenOf childPointers
  rw [hx, ((h.lookup x p).1 hx).1, h.heap]
  congr 1
  funext q
  rw [contents, contents, h.heap]

theorem PrunedTo.mem_childrenOf (h : f.PrunedTo l t) {v : ℕ × Option Block} (hv : v ∈ t.childrenOf x) :
    v ∈ f.childrenOf x := by
  cases hx : t.vertices.lookup x with
  | none =>
    rw [childrenOf_of_none hx] at hv
    cases hv
  | some p => exact h.childrenOf hx ▸ hv

/-- **Pruning** keeps the child lists of the containers it keeps. -/
theorem Brood.pruned (h : f.Brood U) (hs : f.Stocked U) (hp : f.PrunedTo l t) : t.Brood U := by
  have hlow : f.lowestLevel ≤ t.lowestLevel ∧ l ≤ t.lowestLevel := by
    rw [hp.lowest]
    exact ⟨Nat.le_max_left _ _, Nat.le_max_right _ _⟩
  refine ⟨fun x => ?_, fun x v hv => ?_, fun b hb p hpU hid hle => ?_, fun x l' hx hn => ?_⟩
  · cases hx : t.vertices.lookup x with
    | none =>
      rw [childrenOf_of_none hx]
      exact .nil
    | some p => exact hp.childrenOf hx ▸ h.nodup x
  · obtain ⟨b, hbU, hprev, hvb, hcase⟩ := h.child x v (hp.mem_childrenOf hv)
    refine ⟨b, hbU, hprev, hvb, ?_⟩
    rcases hcase with hst | hlt
    · rcases Nat.lt_or_ge b.level l with hlt | hge
      · exact Or.inr (Nat.lt_of_lt_of_le hlt hlow.2)
      · exact Or.inl ((hs.stored_pruned hp).2 ⟨hst, hge⟩)
    · exact Or.inr (Nat.lt_of_lt_of_le hlt hlow.1)
  · have hmem := h.listed b ((hs.stored_pruned hp).1 hb).1 p hpU hid (Nat.le_trans hlow.1 hle)
    -- the container of the parent is filed at the parent's level, which is kept
    cases hx : f.vertices.lookup p.id with
    | none =>
      rw [childrenOf_of_none hx] at hmem
      cases hmem
    | some q =>
      obtain ⟨c, hc, -, hlv, -⟩ := hs.indexed p.id q hx
      have hkept := (hp.lookup p.id q).2
        ⟨hx, c.level, ⟨q, c, hx, hc, rfl⟩, hlv p hpU rfl ▸ Nat.le_trans hlow.2 hle⟩
      rw [hp.childrenOf hkept]
      exact hmem
  · obtain ⟨hx, hle⟩ := hp.filedAt_iff.1 hx
    have hn' : f.getVertex x = none := by
      by_contra hne
      obtain ⟨w, hw⟩ := Option.ne_none_iff_exists'.1 hne
      rw [hp.stored_iff.2 ⟨hw, l', hx, hle⟩] at hn
      cases hn
    obtain ⟨b, hb, hprev, hlt⟩ := h.awaited x l' hx hn'
    exact ⟨b, (hs.stored_pruned hp).2 ⟨hb, Nat.le_trans hle (Nat.le_of_lt hlt)⟩, hprev, hlt⟩

/-- A new block that finds no place for a parent changes no child list. -/
theorem Orderly.childrenOf_stow (h : f.Orderly) (hn : f.getVertex b.id = none) (y : ℕ) :
    (f.stow b).childrenOf y = f.childrenOf y := by
  rw [childrenOf, childPointers_stow h.indexed.wf]
  refine List.filterMap_congr fun q hq => ?_
  obtain ⟨z, v, hv⟩ := h.contents_child hq
  rw [hv, contents_stow h.indexed.wf hn hv]

/-- The child lists after a new block: at most the one of its parent grows, and it does if the parent may still
come. -/
theorem Stocked.childrenOf_addVertex (h : f.Stocked U) (hU : Universe U) (hb : b ∈ U)
    (hlow : f.lowestLevel ≤ b.level) (hn : f.getVertex b.id = none)
    (hr : LevelledForest.addVertex b f = .ok () t) :
    (∀ y, t.childrenOf y = f.childrenOf y ∨ y = b.prevID ∧ t.childrenOf y = f.childrenOf y ++ [(b.id, some b)]) ∧
      ∀ p ∈ U, p.id = b.prevID → f.lowestLevel ≤ p.level → (b.id, some b) ∈ t.childrenOf p.id := by
  have hwf := h.indexed.wf
  have ht := h.addVertex hU hb hr
  have hself := (stored_addVertex hwf hlow hn hr).2 (Or.inr ⟨rfl, rfl⟩)
  cases addVertex_cases hwf hr with
  | ignored hcase => exact absurd hcase (by simp [hn, Nat.not_lt.2 hlow])
  | @root c _ _ hc hcase =>
    refine ⟨fun y => Or.inl (h.orderly.childrenOf_stow hn y), fun p hp hid hle => absurd hle (Nat.not_le.2 ?_)⟩
    -- the block is in a container of its own level, and declares the level of its parent
    rcases hcase with hroot | ⟨y, m, hpar, hm⟩
    · have hlevel := (ht.filedAt hself).2.1.unique ⟨_, c, lookup_stow f b, hc, rfl⟩
      have := (hU.level_parent hb hp hid).2
      omega
    · rw [hU.levelOf_parent hb hpar p hp (hid.trans (prevID_of_parent hpar))]
      exact hm
  | @child c y m _ _ _ _ hpar _ =>
    obtain rfl := prevID_of_parent hpar
    have hch := h.orderly.childrenOf_add hlow hn b.prevID m
    refine ⟨fun y => ?_, fun p _ hid _ => ?_⟩
    · rw [hch]
      split_ifs with hy
      · exact Or.inr ⟨hy, rfl⟩
      · exact Or.inl rfl
    · rw [hch, if_pos hid]
      exact List.mem_append_right _ (List.mem_singleton_self _)

/-- **Adding a block** keeps the child lists right. -/
theorem Brood.addVertex (h : f.Brood U) (hs : f.Stocked U) (hU : Universe U) (hb : b ∈ U)
    (hr : LevelledForest.addVertex b f = .ok () t) : t.Brood U := by
  by_cases hnew : f.lowestLevel ≤ b.level ∧ f.getVertex b.id = none
  swap
  · -- the block is ignored
    cases addVertex_cases hs.indexed.wf hr with
    | ignored => exact h
    | root hlow hn => exact absurd ⟨hlow, hn⟩ hnew
    | child hlow hn => exact absurd ⟨hlow, hn⟩ hnew
  obtain ⟨hlow, hn⟩ := hnew
  have hst : ∀ {y w}, t.getVertex y = some w ↔ f.getVertex y = some w ∨ y = b.id ∧ w = b :=
    stored_addVertex hs.indexed.wf hlow hn hr
  have hlowest := (Prog.wp_ok (addVertex_spec hs.indexed.wf b) hr).lowest
  obtain ⟨hgrow, hlisted⟩ := hs.childrenOf_addVertex hU hb hlow hn hr
  have hmono : ∀ {y v}, v ∈ f.childrenOf y → v ∈ t.childrenOf y := by
    intro y v hv
    rcases hgrow y with he | ⟨-, he⟩
    · exact he ▸ hv
    · exact he ▸ List.mem_append_left _ hv
  refine ⟨fun y => ?_, fun y v hv => ?_, fun w hw p hp hid hle => ?_, fun y l hy hempty => ?_⟩
  · rcases hgrow y with he | ⟨-, he⟩
    · exact he ▸ h.nodup y
    · rw [he]
      refine List.nodup_append.2 ⟨h.nodup y, List.nodup_singleton _, fun v hv v' hv' heq => ?_⟩
      -- a child is stored or below the lowest level, and the new block is neither
      obtain ⟨w, -, -, hvw, hcase⟩ := h.child y v hv
      rw [heq, List.mem_singleton.1 hv', Prod.mk.injEq, Option.some.injEq] at hvw
      obtain ⟨-, rfl⟩ := hvw
      rcases hcase with hst | hlt
      · rw [hn] at hst
        cases hst
      · omega
  · have hcase : v ∈ f.childrenOf y ∨ y = b.prevID ∧ v = (b.id, some b) := by
      rcases hgrow y with he | ⟨hy, he⟩
      · exact Or.inl (he ▸ hv)
      · rw [he] at hv
        exact (List.mem_append.1 hv).imp_right fun hv => ⟨hy, List.mem_singleton.1 hv⟩
    rcases hcase with hv | ⟨rfl, rfl⟩
    · obtain ⟨w, hw, hprev, hvw, hcase⟩ := h.child y v hv
      exact ⟨w, hw, hprev, hvw, hcase.imp (fun hw => hst.2 (Or.inl hw)) fun hlt => hlowest ▸ hlt⟩
    · exact ⟨b, hb, rfl, rfl, Or.inl (hst.2 (Or.inr ⟨rfl, rfl⟩))⟩
  · rw [hlowest] at hle
    rcases hst.1 hw with hw | ⟨-, rfl⟩
    · exact hmono (h.listed w hw p hp hid hle)
    · exact hlisted p hp hid hle
  · rcases hs.orderly.toSound.filedAt_addVertex hr hy with hold | rfl | hpar
    · have hempty₀ : f.getVertex y = none := by
        by_contra hne
        obtain ⟨w, hw⟩ := Option.ne_none_iff_exists'.1 hne
        rw [hst.2 (Or.inl hw)] at hempty
        cases hempty
      obtain ⟨w, hw, hrest⟩ := h.awaited y l hold hempty₀
      exact ⟨w, hst.2 (Or.inl hw), hrest⟩
    · rw [hst.2 (Or.inr ⟨rfl, rfl⟩)] at hempty
      cases hempty
    · exact ⟨b, hst.2 (Or.inr ⟨rfl, rfl⟩), prevID_of_parent hpar, hU.level_declared hb hpar⟩

/-- The children of a stored block are the stored blocks that name it. -/
theorem Brood.mem_childBlocks (h : f.Brood U) (hs : f.Stocked U) (hU : Universe U) {p : Block}
    (hp : f.getVertex x = some p) : b ∈ f.childBlocks x ↔ f.getVertex b.id = some b ∧ b.prevID = x := by
  obtain ⟨rfl, -, hlow⟩ := hs.filedAt hp
  have hpU := hs.stored _ p hp
  rw [childBlocks, List.mem_filterMap]
  constructor
  · rintro ⟨v, hv, hvb⟩
    obtain ⟨w, hw, hprev, rfl, hcase⟩ := h.child _ v hv
    cases hvb
    have hlt := (hU.level_parent hw hpU hprev.symm).2
    exact ⟨hcase.resolve_right (by omega), hprev⟩
  · rintro ⟨hb, hprev⟩
    exact ⟨_, h.listed b hb p hpU hprev.symm hlow, rfl⟩

theorem Brood.nodup_childBlocks (h : f.Brood U) (x : ℕ) : (f.childBlocks x).Nodup := by
  refine List.pairwise_filterMap.2 ((h.nodup x).imp_of_mem fun {v v'} hv hv' hne b hb b' hb' heq => hne ?_)
  subst heq
  obtain ⟨w, -, -, rfl, -⟩ := h.child x v hv
  obtain ⟨w', -, -, rfl, -⟩ := h.child x v' hv'
  cases hb
  cases hb'
  rfl

/-- A container that no stored block names is the one of a stored block, and has no children. -/
theorem Brood.childBlocks_eq_nil (h : f.Brood U) (hs : f.Stocked U) (hU : Universe U)
    (hp : f.vertices.lookup x = some p) (hno : ∀ y b, f.getVertex y = some b → b.prevID ≠ x) :
    f.childBlocks x = [] := by
  obtain ⟨c, hc, -⟩ := hs.indexed x p hp
  cases hx : f.getVertex x with
  | none =>
    obtain ⟨b, hb, hprev, -⟩ := h.awaited x c.level ⟨p, c, hp, hc, rfl⟩ hx
    exact absurd hprev (hno _ b hb)
  | some v =>
    refine List.eq_nil_iff_forall_not_mem.2 fun b hb => ?_
    obtain ⟨hb, hprev⟩ := (h.mem_childBlocks hs hU hx).1 hb
    exact hno _ b hb hprev

end LevelledForest

namespace BlockChain

open LevelledForest

variable {cf : Config} {cs : List Call} {as : List Answer} {t : BlockChain} {U : Set Block}

/-- Child lists are right after any sequence of calls. -/
theorem brood_calls (hU : Universe U) {n : ℕ} (hrun : calls cf cs (new n) = .ok as t)
    (hcs : ∀ b ∈ Call.blocks cs, b ∈ U) : t.forrest.Brood U := by
  revert hcs
  refine calls_induction (I := fun cs _ t => (∀ b ∈ Call.blocks cs, b ∈ U) → t.forrest.Brood U)
    ?_ (fun _ => brood_new U) hrun
  intro cs as s c a t hs ih hc hcs
  rw [Call.blocks_append] at hcs
  have hcs₀ := fun b hb => hcs b (List.mem_append_left _ hb)
  have hst := (recorded_calls hU hs hcs₀).stocked
  rcases call_cases hc with ⟨v, rfl, rfl, rfl⟩ | ⟨b, rfl, rfl, hb⟩ | ⟨id, view, r, rfl, rfl, hr⟩
  · exact ih hcs₀
  · obtain ⟨f, hf, rfl⟩ := Prog.zoom_eq_ok hb
    exact (ih hcs₀).addVertex hst hU (hcs b (by simp [Call.blocks])) hf
  · obtain ⟨l, hl⟩ := exists_prunedTo hst.orderly.toSound hr
    exact (ih hcs₀).pruned hst hl

/-- `GetChildrenBlocks` returns a list without repeats: of a stored id, exactly the stored blocks that name it
as their parent; of an id that no stored block names, the empty list. -/
def ChildrenExact (bc : BlockChain) (id : ℕ) : Prop :=
  ∃ blocks, bc.getChildrenBlocks id = .ok blocks ∧ blocks.Nodup ∧
    (bc.getBlockByID id ≠ none → ∀ b, b ∈ blocks ↔ bc.getBlockByID b.id = some b ∧ b.prevID = id) ∧
    ((∀ x b, bc.getBlockByID x = some b → b.prevID ≠ id) → blocks = [])

/-- **Children lookups are exact where there is a container.**  After any calls that add well-certified blocks,
the lookup for an id is exact and returns if the index of the forest has the id, and aborts otherwise. -/
theorem children_exact_iff (cf : Config) (n : ℕ) (cs : List Call) (as : List Answer) (t : BlockChain)
    (hrun : calls cf cs (new n) = .ok as t) (hU : Universe {b | b ∈ Call.blocks cs}) (id : ℕ) :
    t.ChildrenExact id ↔ t.forrest.vertices.lookup id ≠ none := by
  have hs := (recorded_calls hU hrun fun _ hb => hb).stocked
  have hbrood := brood_calls hU hrun fun _ hb => hb
  constructor
  · rintro ⟨blocks, hblocks, -⟩ hn
    rw [getChildrenBlocks_of_none hn] at hblocks
    cases hblocks
  · intro hne
    obtain ⟨p, hp⟩ := Option.ne_none_iff_exists'.1 hne
    refine ⟨_, getChildrenBlocks_eq hs.indexed.wf hp, hbrood.nodup_childBlocks id, fun hstored b => ?_, ?_⟩
    · obtain ⟨v, hv⟩ := Option.ne_none_iff_exists'.1 hstored
      exact hbrood.mem_childBlocks hs hU hv
    · exact hbrood.childBlocks_eq_nil hs hU hp

/-- The first block of `siblings`, which the two others name. -/
theorem children_exact_iff_siblings :
    ∃ as t, calls (FourNodes.config fun _ => "1") (siblings.map .addBlock) (new 4) = .ok as t ∧
      t.ChildrenExact 1 := by
  have hrun : Prog.passes (calls (FourNodes.config fun _ => "1") (siblings.map .addBlock))
      (fun _ t => (t.forrest.vertices.lookup 1).isSome) (new 4) = true := by
    decide_cbv
  obtain ⟨as, t, ht, hsome⟩ := Prog.exists_ok_of_passes hrun
  refine ⟨as, t, ht, (children_exact_iff _ 4 _ as t ht (universe_of_test (by decide_cbv)) 1).2 fun hn => ?_⟩
  rw [hn] at hsome
  cases hsome

/-- The lookup for an id that was pruned, and for one that was never seen, dereferences nil. -/
theorem unknown_children_abort :
    ∃ as t, calls (FourNodes.config fun _ => "1") twoOfAView (new 4) = .ok as t ∧
      Universe {b | b ∈ Call.blocks twoOfAView} ∧
      t.getChildrenBlocks 1 = .error .nilDereference ∧ t.getChildrenBlocks 9 = .error .nilDereference ∧
      ¬ t.ChildrenExact 1 ∧ ¬ t.ChildrenExact 9 := by
  have hrun : Prog.passes (calls (FourNodes.config fun _ => "1") twoOfAView)
      (fun _ t => (t.forrest.vertices.lookup 1).isNone && (t.forrest.vertices.lookup 9).isNone)
      (new 4) = true := by
    decide_cbv
  obtain ⟨as, t, ht, hnone⟩ := Prog.exists_ok_of_passes hrun
  simp only [Bool.and_eq_true, Option.isNone_iff_eq_none] at hnone
  have h1 := getChildrenBlocks_of_none hnone.1
  have h9 := getChildrenBlocks_of_none hnone.2
  refine ⟨as, t, ht, universe_of_test (by decide_cbv), h1, h9, ?_, ?_⟩
  · rintro ⟨blocks, hblocks, -⟩
    rw [h1] at hblocks
    cases hblocks
  · rintro ⟨blocks, hblocks, -⟩
    rw [h9] at hblocks
    cases hblocks

end BlockChain

end Bamboo
