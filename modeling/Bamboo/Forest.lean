import Bamboo.Types

/-!
# The levelled forest

`blockchain/leveled_forrest.go`: the blocks a replica has received, indexed by id and by level.  A
container is shared by three indices (by id, by level, and in the child list of its parent), so the
containers live in a heap and the indices hold pointers, positions in it.  A container is EMPTY, a placeholder
for a block that a child refers to, until the block itself is added.
-/

namespace Bamboo

/-- `vertexContainer`; it is FULL when `vertex` is set. -/
structure VertexContainer where
  id : ℕ
  level : ℕ
  children : List ℕ
  vertex : Option Block
  deriving DecidableEq

/-- `LevelledForest`, with the heap its pointers point into. -/
structure LevelledForest where
  heap : List VertexContainer
  vertices : GoMap ℕ ℕ
  verticesAtLevel : GoMap ℕ (List ℕ)
  lowestLevel : ℕ
  deriving DecidableEq

namespace LevelledForest

/-- `NewLevelledForest`. -/
def new : LevelledForest := ⟨[], ∅, ∅, 0⟩

variable (f : LevelledForest)

/-- `GetVertex`: the block of a FULL container. -/
def getVertex (id : ℕ) : Option Block := do
  let p ← f.vertices.lookup id
  let c ← f.heap[p]?
  c.vertex

/-- `HasVertex`. -/
def hasVertex (id : ℕ) : Bool := (f.getVertex id).isSome

/-- `f.verticesAtLevel[l]`, the empty list when the level is absent. -/
def atLevel (l : ℕ) : List ℕ := (f.verticesAtLevel.lookup l).getD []

/-- `getOrCreateVertexContainer`. -/
def getOrCreateVertexContainer (id : ℕ) (level : ℕ) : ℕ × LevelledForest :=
  match f.vertices.lookup id with
  | some p => (p, f)
  | none =>
    (f.heap.length,
      { f with
        heap := f.heap ++ [⟨id, level, [], none⟩]
        vertices := f.vertices.insert id f.heap.length
        verticesAtLevel := f.verticesAtLevel.insert level (f.atLevel level ++ [f.heap.length]) })

/-- Write to the container behind a pointer. -/
def modifyAt (p : ℕ) (g : VertexContainer → VertexContainer) : LevelledForest :=
  { f with heap := f.heap.modify p g }

/-- `registerWithParent`. -/
def registerWithParent (p : ℕ) : Go LevelledForest Unit := do
  let f ← get
  match f.heap[p]? with
  | none => throw .nilDereference
  | some c =>
    if c.level ≤ f.lowestLevel then return  -- check (a)
    match c.vertex.bind Block.parent with
    | none => throw .nilDereference
    | some (parentID, parentView) =>
      if parentView < f.lowestLevel then return
      let (q, f) := f.getOrCreateVertexContainer parentID parentView
      set (f.modifyAt q fun c => { c with children := c.children ++ [p] })

/-- `AddVertex`. -/
def addVertex (vertex : Block) : Go LevelledForest Unit := do
  let f ← get
  if vertex.level < f.lowestLevel then return
  let (p, f) := f.getOrCreateVertexContainer vertex.id vertex.level
  set f
  match f.heap[p]? with
  | none => throw .nilDereference
  | some c =>
    if c.vertex.isSome then return  -- the vertex was already stored
    set (f.modifyAt p fun c => { c with vertex := some vertex })
    registerWithParent p

/-- The first loop of `PruneUpToLevel`: from level `l` down along the parents of the first container
of each level, collecting the levels it reaches.  A level that comes up twice would make the loop run
for ever, so it has ended or never ends after as many rounds as there are levels. -/
def committedLevels : ℕ → ℕ → List ℕ → Except Fault (List ℕ)
  | 0, _, _ => .error .diverge
  | fuel + 1, l, acc =>
    if f.lowestLevel ≤ l ∧ 1 < l then
      match f.atLevel l with
      | [] => .error .indexOutOfRange
      | p :: _ =>
        match f.heap[p]?.bind VertexContainer.vertex with
        | none => .error .nilDereference
        | some vertex =>
          match vertex.parent with
          | none => .error .nilDereference
          | some (parentID, _) =>
            match f.getVertex parentID with
            | none => .ok acc
            | some parentVertex =>
              if parentVertex.level < f.lowestLevel then .ok acc
              else committedLevels fuel parentVertex.level (parentVertex.level :: acc)
    else .ok acc

/-- The body of the second loop of `PruneUpToLevel`: delete one level.  Gives the forked blocks found
there and the number of containers deleted. -/
def pruneLevel (committed : List ℕ) (l : ℕ) : (List Block × ℕ) × LevelledForest :=
  let ps := f.atLevel l
  let containers := ps.filterMap (f.heap[·]?)
  let forked := if l ∉ committed ∧ 1 < l then containers.filterMap VertexContainer.vertex else []
  ((forked, ps.length),
    { f with
      vertices := containers.foldl (fun m c => m.erase c.id) f.vertices
      verticesAtLevel := f.verticesAtLevel.erase l })

/-- The second loop of `PruneUpToLevel`, over a list of levels. -/
def pruneLevels (committed : List ℕ) : List ℕ → LevelledForest → (List Block × ℕ) × LevelledForest
  | [], f => (([], 0), f)
  | l :: ls, f =>
    let ((forked, k), f) := f.pruneLevel committed l
    let ((forked', k'), f) := pruneLevels committed ls f
    ((forked ++ forked', k + k'), f)

/-- `PruneUpToLevel`: the forked blocks and the number of pruned containers, or `none` for its error.
-/
def pruneUpToLevel (level : ℕ) : Go LevelledForest (Option (List Block × ℕ)) := do
  let f ← get
  if level < f.lowestLevel then return none
  let committed ← Prog.ofExcept
    (f.committedLevels (f.verticesAtLevel.entries.length + 2) level [])
  let (res, f) := pruneLevels committed (List.range' f.lowestLevel (level - f.lowestLevel)) f
  set { f with lowestLevel := level }
  return some res

/-- The errors of `VerifyVertex`, with what their texts name. -/
inductive VertexError
  /-- "conflicting vertices with ID" -/
  | conflicting (id : ℕ)
  /-- "parent vertex's level must be smaller than the vertex's level" -/
  | parentNotBelow (parentLevel level : ℕ)
  /-- "parent vertex has different level than the stored vertex" -/
  | parentDiffers (id parentLevel storedLevel : ℕ)
  deriving DecidableEq

/-- `isEquivalentToStoredVertex`: whether the vertex is stored, or an error when another vertex is stored
under its id. -/
def isEquivalentToStoredVertex (vertex : Block) : Except Fault (Except VertexError Bool) :=
  match f.getVertex vertex.id with
  | none => .ok (.ok false)
  | some storedVertex =>
    if vertex.level ≠ storedVertex.level then .ok (.error (.conflicting vertex.id))
    else if vertex.level ≤ f.lowestLevel then .ok (.ok true)
    else
      match vertex.parent, storedVertex.parent with
      | some (newParentId, newParentView), some (storedParentId, storedParentView) =>
        if newParentId ≠ storedParentId then .ok (.error (.conflicting vertex.id))
        else if newParentView ≠ storedParentView then .ok (.error (.conflicting vertex.id))
        else .ok (.ok true)
      | _, _ => .error .nilDereference

/-- `verifyParent`; `none` when it has no objection. -/
def verifyParent (vertex : Block) : Except Fault (Option VertexError) :=
  match vertex.parent with
  | none => .error .nilDereference
  | some (parentID, parentLevel) =>
    if vertex.level ≤ parentLevel then .ok (some (.parentNotBelow parentLevel vertex.level))
    else
      match f.getVertex parentID with
      | none => .ok none
      | some parentVertex =>
        if parentVertex.level ≠ parentLevel then
          .ok (some (.parentDiffers vertex.id parentLevel parentVertex.level))
        else .ok none

/-- `VerifyVertex`; `none` when it has no objection. -/
def verifyVertex (vertex : Block) : Except Fault (Option VertexError) :=
  if vertex.level < f.lowestLevel then .ok none
  else do
    match ← f.isEquivalentToStoredVertex vertex with
    | .error err => return some err
    | .ok isKnownVertex =>
      if isKnownVertex then return none
      else if vertex.level = f.lowestLevel then return none
      else f.verifyParent vertex

/-! ### Pointers lead to the container of their id -/

variable {f}

/-- The index by id is truthful. -/
def WF (f : LevelledForest) : Prop :=
  ∀ id p, f.vertices.lookup id = some p → ∃ c, f.heap[p]? = some c ∧ c.id = id

theorem wf_new : new.WF := by
  intro id p h
  simp [new] at h

theorem wf_getOrCreate (hf : f.WF) (id : ℕ) (level : ℕ) :
    (f.getOrCreateVertexContainer id level).2.WF := by
  unfold getOrCreateVertexContainer
  cases hl : f.vertices.lookup id with
  | some p => exact hf
  | none =>
    intro id' p h
    dsimp only at h ⊢
    by_cases hid : id' = id
    · subst hid
      rw [AList.lookup_insert] at h
      cases h
      exact ⟨⟨id', level, [], none⟩, by simp, rfl⟩
    · rw [AList.lookup_insert_ne hid] at h
      obtain ⟨c, hc, hcid⟩ := hf id' p h
      have hp : p < f.heap.length := (List.getElem?_eq_some_iff.1 hc).1
      exact ⟨c, by rw [List.getElem?_append_left hp, hc], hcid⟩

theorem wf_modifyAt (hf : f.WF) (p : ℕ) {g : VertexContainer → VertexContainer}
    (hg : ∀ c, (g c).id = c.id) : (f.modifyAt p g).WF := by
  intro id q h
  obtain ⟨c, hc, hid⟩ := hf id q h
  simp only [modifyAt, List.getElem?_modify, hc]
  by_cases hpq : p = q
  · exact ⟨g c, by simp [hpq], by rw [hg, hid]⟩
  · exact ⟨c, by simp [hpq], hid⟩

/-- The pointer that `getOrCreateVertexContainer` gives is the one its id is indexed under. -/
theorem lookup_getOrCreate (id : ℕ) (level : ℕ) :
    (f.getOrCreateVertexContainer id level).2.vertices.lookup id =
      some (f.getOrCreateVertexContainer id level).1 := by
  unfold getOrCreateVertexContainer
  cases hl : f.vertices.lookup id with
  | some p => exact hl
  | none => exact AList.lookup_insert _

/-- A placeholder does not change which blocks are stored. -/
theorem getVertex_getOrCreate (hf : f.WF) (id : ℕ) (level : ℕ) (x : ℕ) :
    (f.getOrCreateVertexContainer id level).2.getVertex x = f.getVertex x := by
  unfold getOrCreateVertexContainer
  cases hl : f.vertices.lookup id with
  | some p => rfl
  | none =>
    unfold getVertex
    dsimp only
    by_cases hx : x = id
    · subst hx
      rw [AList.lookup_insert, hl]
      simp
    · rw [AList.lookup_insert_ne hx]
      cases hp : f.vertices.lookup x with
      | none => rfl
      | some p =>
        obtain ⟨c, hc, -⟩ := hf x p hp
        have hlt : p < f.heap.length := (List.getElem?_eq_some_iff.1 hc).1
        simp only [Option.bind_eq_bind, Option.bind_some, List.getElem?_append_left hlt]

/-- Writing to the container of `id` changes what is stored under `id` only. -/
theorem getVertex_modifyAt (hf : f.WF) {id : ℕ} {p : ℕ}
    (hp : f.vertices.lookup id = some p) (g : VertexContainer → VertexContainer) (x : ℕ) :
    (f.modifyAt p g).getVertex x =
      if x = id then (f.heap[p]?.map g).bind VertexContainer.vertex else f.getVertex x := by
  unfold getVertex
  simp only [modifyAt, Option.bind_eq_bind]
  by_cases hx : x = id
  · subst hx
    simp [hp]
  · rw [if_neg hx]
    cases hq : f.vertices.lookup x with
    | none => rfl
    | some q =>
      have hpq : p ≠ q := by
        rintro rfl
        obtain ⟨c, hc, hid⟩ := hf x p hq
        obtain ⟨c', hc', hid'⟩ := hf id p hp
        rw [hc] at hc'
        cases hc'
        exact hx (hid.symm.trans hid')
      simp [hpq]

/-! ### Levels -/

/-- Every indexed container is listed at its own level, which satisfies `lv` and is not below the lowest
level. -/
def Indexed (lv : ℕ → ℕ → Prop) (f : LevelledForest) : Prop :=
  ∀ id p, f.vertices.lookup id = some p → ∃ c, f.heap[p]? = some c ∧ c.id = id ∧ lv id c.level ∧
    p ∈ f.atLevel c.level ∧ f.lowestLevel ≤ c.level

section Levels

variable {lv lv' : ℕ → ℕ → Prop}

theorem indexed_new : new.Indexed lv := by
  intro id p h
  simp [new] at h

theorem Indexed.mono (h : f.Indexed lv) (hl : ∀ id l, lv id l → lv' id l) : f.Indexed lv' := by
  intro id p hp
  obtain ⟨c, hc, hid, hlv, hrest⟩ := h id p hp
  exact ⟨c, hc, hid, hl _ _ hlv, hrest⟩

theorem Indexed.getOrCreate (h : f.Indexed lv) {id level : ℕ} (hl : lv id level)
    (hlow : f.lowestLevel ≤ level) : (f.getOrCreateVertexContainer id level).2.Indexed lv := by
  unfold getOrCreateVertexContainer
  cases hk : f.vertices.lookup id with
  | some p => exact h
  | none =>
    -- the new container is appended to the list of its level
    have hat : ∀ l q, q ∈ f.atLevel l →
        q ∈ ((f.verticesAtLevel.insert level (f.atLevel level ++ [f.heap.length])).lookup l).getD [] := by
      intro l q hq
      by_cases hll : l = level
      · subst hll
        rw [AList.lookup_insert]
        exact List.mem_append_left _ hq
      · rw [AList.lookup_insert_ne hll]
        exact hq
    intro id' p hp
    dsimp only at hp ⊢
    by_cases hid : id' = id
    · subst hid
      rw [AList.lookup_insert] at hp
      cases hp
      refine ⟨⟨id', level, [], none⟩, by simp, rfl, hl, ?_, hlow⟩
      simp [atLevel]
    · rw [AList.lookup_insert_ne hid] at hp
      obtain ⟨c, hc, hcid, hlv, hmem, hle⟩ := h id' p hp
      have hlt : p < f.heap.length := (List.getElem?_eq_some_iff.1 hc).1
      exact ⟨c, by rw [List.getElem?_append_left hlt, hc], hcid, hlv, hat _ _ hmem, hle⟩

theorem Indexed.modifyAt (h : f.Indexed lv) (p : ℕ) {g : VertexContainer → VertexContainer}
    (hg : ∀ c, (g c).id = c.id ∧ (g c).level = c.level) : (f.modifyAt p g).Indexed lv := by
  intro id q hq
  obtain ⟨c, hc, hid, hlv, hmem, hle⟩ := h id q hq
  simp only [LevelledForest.modifyAt, List.getElem?_modify, hc]
  by_cases hpq : p = q
  · exact ⟨g c, by simp [hpq], (hg c).1.trans hid, (hg c).2.symm ▸ hlv, (hg c).2.symm ▸ hmem,
      (hg c).2.symm ▸ hle⟩
  · exact ⟨c, by simp [hpq], hid, hlv, hmem, hle⟩

/-- A block whose container is indexed is not below the lowest level. -/
theorem Indexed.lowestLevel_le (h : f.Indexed lv) {x : ℕ} {b : Block} (hx : f.getVertex x = some b)
    (hl : ∀ l, lv x l → l = b.level) : f.lowestLevel ≤ b.level := by
  simp only [getVertex, Option.bind_eq_bind, Option.bind_eq_some_iff] at hx
  obtain ⟨p, hp, -⟩ := hx
  obtain ⟨c, -, -, hlv, -, hle⟩ := h x p hp
  rw [hl _ hlv] at hle
  exact hle

end Levels

/-! ### Adding a vertex -/

/-- `t` is `f` with the container behind `p` registered with its parent: the blocks stored and the lowest
level are those of `f`. -/
structure Registered (f : LevelledForest) (p : ℕ) (t : LevelledForest) : Prop where
  wf : t.WF
  stored : ∀ x, t.getVertex x = f.getVertex x
  lowest : t.lowestLevel = f.lowestLevel
  indexed : ∀ lv : ℕ → ℕ → Prop,
    (∀ c q l, f.heap[p]? = some c → c.vertex.bind Block.parent = some (q, l) → lv q l) →
    f.Indexed lv → t.Indexed lv

/-- `t` is `f` with `b` stored, unless `b` is below the lowest level or its id is taken. -/
structure Added (f : LevelledForest) (b : Block) (t : LevelledForest) : Prop where
  wf : t.WF
  stored : ∀ x, t.getVertex x =
    if x = b.id ∧ f.lowestLevel ≤ b.level ∧ f.getVertex x = none then some b else f.getVertex x
  lowest : t.lowestLevel = f.lowestLevel
  indexed : ∀ lv : ℕ → ℕ → Prop, lv b.id b.level → (∀ q l, b.parent = some (q, l) → lv q l) →
    f.Indexed lv → t.Indexed lv

theorem lowestLevel_getOrCreate (id : ℕ) (level : ℕ) :
    (f.getOrCreateVertexContainer id level).2.lowestLevel = f.lowestLevel := by
  unfold getOrCreateVertexContainer
  cases f.vertices.lookup id <;> rfl

theorem registerWithParent_spec (hf : f.WF) (p : ℕ) :
    Prog.wp (registerWithParent p) (fun _ t => f.Registered p t) (f.Registered p) f := by
  have hself : f.Registered p f := ⟨hf, fun _ => rfl, rfl, fun _ _ h => h⟩
  unfold registerWithParent
  simp only [Prog.wp_bind, Prog.wp_get]
  cases hc : f.heap[p]? with
  | none => exact hself
  | some c =>
    simp only [Prog.wp_ite, Prog.wp_pure]
    refine ⟨fun _ => hself, fun _ => ?_⟩
    cases hpar : c.vertex.bind Block.parent with
    | none => exact hself
    | some pr =>
      obtain ⟨parentID, parentView⟩ := pr
      simp only [Prog.wp_ite, Prog.wp_pure, Prog.wp_set]
      refine ⟨fun _ => hself, fun hlow => ?_⟩
      have hwf := wf_getOrCreate hf parentID parentView
      refine ⟨wf_modifyAt hwf _ fun _ => rfl, fun x => ?_, lowestLevel_getOrCreate _ _, fun lv hl h => ?_⟩
      swap
      · exact (h.getOrCreate (hl c _ _ hc hpar) (by omega)).modifyAt _ fun _ => ⟨rfl, rfl⟩
      rw [getVertex_modifyAt hwf (lookup_getOrCreate _ _),
        ← getVertex_getOrCreate hf parentID parentView x]
      split_ifs with hx
      · -- only the child list of the parent's container changes
        subst hx
        unfold getVertex
        rw [lookup_getOrCreate]
        simp only [Option.bind_eq_bind, Option.bind_some, Option.bind_map]
        rfl
      · rfl

/-- What `AddVertex` does to the stored blocks. -/
theorem addVertex_spec (hf : f.WF) (b : Block) :
    Prog.wp (addVertex b) (fun _ t => f.Added b t) (f.Added b) f := by
  unfold addVertex
  simp only [Prog.wp_bind, Prog.wp_get, Prog.wp_ite, Prog.wp_pure]
  refine ⟨fun hlow => ⟨hf, fun x => ?_, rfl, fun _ _ _ h => h⟩, fun hlow => ?_⟩
  · rw [if_neg fun h => absurd h.2.1 (by omega)]
  · have hlow : f.lowestLevel ≤ b.level := by omega
    have hwf := wf_getOrCreate hf b.id b.level
    have hlk := lookup_getOrCreate (f := f) b.id b.level
    have hgv := getVertex_getOrCreate hf b.id b.level
    have hll := lowestLevel_getOrCreate (f := f) b.id b.level
    have hix : ∀ lv : ℕ → ℕ → Prop, lv b.id b.level → f.Indexed lv → Indexed lv _ :=
      fun lv hl h => h.getOrCreate hl hlow
    generalize f.getOrCreateVertexContainer b.id b.level = pf at hwf hlk hgv hll hix ⊢
    obtain ⟨p, f₁⟩ := pf
    dsimp only at hwf hlk hgv hll hix ⊢
    obtain ⟨c, hc, -⟩ := hwf b.id p hlk
    have hstored : f.getVertex b.id = c.vertex := by
      rw [← hgv]
      unfold getVertex
      simp [hlk, hc]
    simp only [Prog.wp_set, hc, Prog.wp_ite, Prog.wp_pure]
    refine ⟨fun hfull => ⟨hwf, fun x => ?_, hll, fun lv hl _ h => hix lv hl h⟩, fun hempty => ?_⟩
    · rw [hgv, if_neg]
      rintro ⟨rfl, -, hnone⟩
      rw [hstored] at hnone
      simp [hnone] at hfull
    · have hnone : c.vertex = none := by simpa using hempty
      have hwf₂ := wf_modifyAt hwf p (g := fun c => { c with vertex := some b }) fun _ => rfl
      have key : ∀ t, (f₁.modifyAt p fun c => { c with vertex := some b }).Registered p t →
          f.Added b t := by
        rintro t ⟨ht, hx, hl, hi⟩
        refine ⟨ht, fun x => ?_, hl.trans hll, fun lv hlv hpar h => ?_⟩
        swap
        · refine hi lv (fun c' q l hc' hq => hpar q l ?_) ((hix lv hlv h).modifyAt p fun _ => ⟨rfl, rfl⟩)
          -- the container now holds `b`
          simp only [modifyAt, List.getElem?_modify, hc, if_true] at hc'
          cases hc'
          exact hq
        rw [hx, getVertex_modifyAt hwf hlk, hc, hgv]
        by_cases hxb : x = b.id
        · subst hxb
          rw [if_pos rfl, if_pos ⟨rfl, hlow, hstored.trans hnone⟩]
          rfl
        · rw [if_neg hxb, if_neg fun h => hxb h.1]
      exact Prog.wp_mono (registerWithParent_spec hwf₂ p) (fun _ t => key t) key

/-! ### Pruning -/

theorem lookup_foldl_erase {κ : Type} (cs : List VertexContainer) (m : GoMap ℕ κ)
    (x : ℕ) :
    (cs.foldl (fun m c => m.erase c.id) m).lookup x =
      if x ∈ cs.map VertexContainer.id then none else m.lookup x := by
  induction cs generalizing m with
  | nil => simp
  | cons c cs ih =>
    rw [List.foldl_cons, ih]
    by_cases hx : x = c.id
    · subst hx; simp
    · simp [AList.lookup_erase_ne hx, hx]

/-- Pruning only forgets. -/
theorem getVertex_of_pruneLevel {committed : List ℕ} {l x : ℕ} {b : Block}
    (h : (f.pruneLevel committed l).2.getVertex x = some b) : f.getVertex x = some b := by
  simp only [pruneLevel, getVertex, lookup_foldl_erase, Option.bind_eq_bind] at h ⊢
  split_ifs at h with hx
  · simp at h
  · exact h

theorem getVertex_of_pruneLevels {committed ls : List ℕ} {x : ℕ} {b : Block}
    (h : (pruneLevels committed ls f).2.getVertex x = some b) : f.getVertex x = some b := by
  induction ls generalizing f with
  | nil => exact h
  | cons l ls ih => exact getVertex_of_pruneLevel (ih (f := (f.pruneLevel committed l).2) h)

theorem wf_pruneLevels (committed ls : List ℕ) (hf : f.WF) : (pruneLevels committed ls f).2.WF := by
  induction ls generalizing f with
  | nil => exact hf
  | cons l ls ih =>
    refine ih (f := (f.pruneLevel committed l).2) fun id p h => ?_
    simp only [pruneLevel, lookup_foldl_erase] at h ⊢
    split_ifs at h
    exact hf id p h

/-- No container of the pruned level stays indexed. -/
theorem Indexed.pruneLevel {lv : ℕ → ℕ → Prop} (h : f.Indexed lv) (committed : List ℕ) (l : ℕ) :
    (f.pruneLevel committed l).2.Indexed fun id l' => lv id l' ∧ l' ≠ l := by
  intro id p hp
  simp only [LevelledForest.pruneLevel, lookup_foldl_erase] at hp ⊢
  split_ifs at hp with herased
  obtain ⟨c, hc, hid, hlv, hmem, hle⟩ := h id p hp
  have hne : c.level ≠ l := by
    rintro rfl
    exact herased (List.mem_map.2 ⟨c, List.mem_filterMap.2 ⟨p, hmem, hc⟩, hid⟩)
  refine ⟨c, hc, hid, ⟨hlv, hne⟩, ?_, hle⟩
  simp only [atLevel, AList.lookup_erase_ne hne]
  exact hmem

theorem Indexed.pruneLevels {lv : ℕ → ℕ → Prop} (h : f.Indexed lv) (committed ls : List ℕ) :
    (pruneLevels committed ls f).2.Indexed fun id l => lv id l ∧ l ∉ ls := by
  induction ls generalizing f lv with
  | nil => exact h.mono fun _ _ hl => ⟨hl, List.not_mem_nil⟩
  | cons l ls ih =>
    refine (ih (h.pruneLevel committed l)).mono fun id l' hl => ⟨hl.1.1, ?_⟩
    rw [List.mem_cons, not_or]
    exact ⟨hl.1.2, hl.2⟩

theorem lowestLevel_pruneLevels (committed ls : List ℕ) :
    (pruneLevels committed ls f).2.lowestLevel = f.lowestLevel := by
  induction ls generalizing f with
  | nil => rfl
  | cons l ls ih => exact ih

/-- What `PruneUpToLevel` does when it returns: it errs, or deletes the levels below. -/
theorem pruneUpToLevel_cases {l : ℕ} {t : LevelledForest} {r : Option (List Block × ℕ)}
    (h : pruneUpToLevel l f = .ok r t) :
    (l < f.lowestLevel ∧ r = none ∧ t = f) ∨
      ∃ committed, f.lowestLevel ≤ l ∧
        f.committedLevels (f.verticesAtLevel.entries.length + 2) l [] = .ok committed ∧
        r = some (pruneLevels committed (List.range' f.lowestLevel (l - f.lowestLevel)) f).1 ∧
        t = { (pruneLevels committed (List.range' f.lowestLevel (l - f.lowestLevel)) f).2 with
          lowestLevel := l } := by
  unfold pruneUpToLevel at h
  rw [Prog.get_bind_apply] at h
  by_cases hl : l < f.lowestLevel
  · rw [if_pos hl] at h
    cases h
    exact Or.inl ⟨hl, rfl, rfl⟩
  · rw [if_neg hl] at h
    cases hc : f.committedLevels (f.verticesAtLevel.entries.length + 2) l [] with
    | error e =>
      rw [hc] at h
      cases h
    | ok committed =>
      rw [hc, Prog.ok_bind_apply] at h
      cases h
      exact Or.inr ⟨committed, Nat.not_lt.1 hl, rfl, rfl, rfl⟩

theorem pruneUpToLevel_of_ok {l : ℕ} {committed : List ℕ} (hlow : f.lowestLevel ≤ l)
    (hc : f.committedLevels (f.verticesAtLevel.entries.length + 2) l [] = .ok committed) :
    pruneUpToLevel l f =
      .ok (some (pruneLevels committed (List.range' f.lowestLevel (l - f.lowestLevel)) f).1)
        { (pruneLevels committed (List.range' f.lowestLevel (l - f.lowestLevel)) f).2 with
          lowestLevel := l } := by
  unfold pruneUpToLevel
  rw [Prog.get_bind_apply, if_neg (Nat.not_lt.2 hlow), hc, Prog.ok_bind_apply]
  rfl

/-- What `PruneUpToLevel` does to the stored blocks: it only forgets, and raises the lowest level to
its argument, or errs and does nothing. -/
structure Pruned (f : LevelledForest) (level : ℕ) (r : Option (List Block × ℕ))
    (t : LevelledForest) : Prop where
  wf : t.WF
  stored : ∀ x b, t.getVertex x = some b → f.getVertex x = some b
  failed : r = none → t = f
  lowest : r.isSome → f.lowestLevel ≤ level ∧ t.lowestLevel = level
  indexed : ∀ lv : ℕ → ℕ → Prop, f.Indexed lv → t.Indexed lv

theorem pruneUpToLevel_spec (hf : f.WF) (level : ℕ) :
    Prog.wp (pruneUpToLevel level) (fun r t => f.Pruned level r t) (fun t => t = f) f := by
  unfold pruneUpToLevel
  simp only [Prog.wp_bind, Prog.wp_get, Prog.wp_ite, Prog.wp_pure, Prog.wp_ofExcept, Prog.wp_set]
  refine ⟨fun _ => ⟨hf, fun _ _ h => h, fun _ => rfl, fun h => by simp at h, fun _ h => h⟩,
    fun hlow => ⟨fun committed _ => ?_, fun _ _ => trivial⟩⟩
  refine ⟨wf_pruneLevels committed _ hf, fun _ _ h => getVertex_of_pruneLevels h, fun h => by simp at h,
    fun _ => ⟨by omega, rfl⟩, fun lv h => ?_⟩
  intro id p hp
  obtain ⟨c, hc, hid, ⟨hlv, hout⟩, hmem, hle⟩ := h.pruneLevels committed _ id p hp
  rw [lowestLevel_pruneLevels] at hle
  -- what is left is not among the pruned levels, so it is at the new lowest level or above
  rw [List.mem_range'_1] at hout
  exact ⟨c, hc, hid, hlv, hmem, by dsimp only; omega⟩

end LevelledForest

end Bamboo
