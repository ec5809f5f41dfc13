import Bamboo.Levels

/-!
# Where the forest keeps its blocks

A container stays at the level it was created for, which is the level of its block only if whoever caused
it to be created told the truth.  `PruneUpToLevel` goes by the level of the container.

* `LevelledForest.FiledAt`: the level of the container of an id;
* `LevelledForest.Sound`: the indices of the forest agree with each other;
* `LevelledForest.PrunedTo`, `BlockChain.commitBlock_prunedTo`: a commit keeps exactly what is filed at the
  committed level or above;
* `Sound.addVertex`: a new block goes where a container waits for it, else to its own level.
-/

namespace Bamboo

namespace LevelledForest

variable {f t : LevelledForest} {b : Block} {x l : ℕ}

/-- The id has a container at the level. -/
def FiledAt (f : LevelledForest) (x l : ℕ) : Prop :=
  ∃ p c, f.vertices.lookup x = some p ∧ f.heap[p]? = some c ∧ c.level = l

instance : Decidable (f.FiledAt x l) :=
  decidable_of_iff (((f.vertices.lookup x).bind fun p => (f.heap[p]?).map VertexContainer.level) = some l) (by
    simp only [FiledAt, Option.bind_eq_some_iff, Option.map_eq_some_iff, exists_and_left])

/-- The containers listed at a level have this level, and are the ones indexed under their id. -/
def Shelved (f : LevelledForest) : Prop :=
  ∀ l p, p ∈ f.atLevel l → ∃ c, f.heap[p]? = some c ∧ c.level = l ∧ f.vertices.lookup c.id = some p

/-- The indices agree, and blocks are stored under their own id. -/
structure Sound (f : LevelledForest) : Prop where
  indexed : f.Indexed fun _ _ => True
  shelved : f.Shelved
  named : ∀ x c, f.getVertex x = some c → c.id = x

theorem sound_new : new.Sound where
  indexed := indexed_new
  shelved := fun l p h => by simp [new, atLevel] at h
  named := fun x c h => by simp [new, getVertex] at h

theorem FiledAt.unique {l' : ℕ} (h : f.FiledAt x l) (h' : f.FiledAt x l') : l = l' := by
  obtain ⟨p, c, hp, hc, rfl⟩ := h
  obtain ⟨p', c', hp', hc', rfl⟩ := h'
  rw [hp] at hp'
  cases hp'
  rw [hc] at hc'
  cases hc'
  rfl

/-- A stored block has a container. -/
theorem exists_filedAt {c : Block} (hx : f.getVertex x = some c) : ∃ l, f.FiledAt x l := by
  simp only [getVertex, Option.bind_eq_bind, Option.bind_eq_some_iff] at hx
  obtain ⟨p, hp, d, hd, -⟩ := hx
  exact ⟨d.level, p, d, hp, hd, rfl⟩

/-- In a sound forest it is not below the lowest level. -/
theorem Sound.filedAt (h : f.Sound) {c : Block} (hx : f.getVertex x = some c) :
    ∃ l, f.FiledAt x l ∧ f.lowestLevel ≤ l := by
  obtain ⟨l, p, d, hp, hd, rfl⟩ := exists_filedAt hx
  obtain ⟨d', hd', -, -, -, hlow⟩ := h.indexed x p hp
  rw [hd] at hd'
  cases hd'
  exact ⟨d.level, ⟨p, d, hp, hd, rfl⟩, hlow⟩

/-! ### Pruning -/

/-- Pruning a level forgets the containers of this level. -/
theorem Sound.lookup_pruneLevel (h : f.Sound) (committed : List ℕ) {p : ℕ} :
    (f.pruneLevel committed l).2.vertices.lookup x = some p ↔
      f.vertices.lookup x = some p ∧ ¬ f.FiledAt x l := by
  simp only [pruneLevel, lookup_foldl_erase]
  split_ifs with hmem
  · obtain ⟨c, hc, rfl⟩ := List.mem_map.1 hmem
    obtain ⟨q, hq, hqc⟩ := List.mem_filterMap.1 hc
    obtain ⟨c', hc', hl, hix⟩ := h.shelved l q hq
    rw [hqc] at hc'
    cases hc'
    exact ⟨fun h => (by cases h), fun h => (h.2 ⟨q, c, hix, hqc, hl⟩).elim⟩
  · refine ⟨fun hp => ⟨hp, ?_⟩, fun h => h.1⟩
    rintro ⟨q, c, hq, hc, rfl⟩
    obtain ⟨c', hc', hid, -, hat, -⟩ := h.indexed x q hq
    rw [hc] at hc'
    cases hc'
    exact hmem (List.mem_map.2 ⟨c, List.mem_filterMap.2 ⟨q, hat, hc⟩, hid⟩)

theorem Sound.pruneLevel (h : f.Sound) (committed : List ℕ) (l : ℕ) :
    (f.pruneLevel committed l).2.Sound where
  indexed := (h.indexed.pruneLevel committed l).mono fun _ _ _ => trivial
  shelved := fun l' p hp => by
    have hne : l' ≠ l := by
      rintro rfl
      simp [LevelledForest.pruneLevel, atLevel] at hp
    have hp' : p ∈ f.atLevel l' := by
      simpa [LevelledForest.pruneLevel, atLevel, AList.lookup_erase_ne hne] using hp
    obtain ⟨c, hc, hl, hix⟩ := h.shelved l' p hp'
    refine ⟨c, hc, hl, (h.lookup_pruneLevel committed).2 ⟨hix, fun hfiled => hne ?_⟩⟩
    exact hl.symm.trans (FiledAt.unique ⟨p, c, hix, hc, rfl⟩ hfiled)
  named := fun x c hx => h.named x c (getVertex_of_pruneLevel hx)

theorem Sound.pruneLevels (h : f.Sound) (committed ls : List ℕ) :
    (pruneLevels committed ls f).2.Sound ∧ (pruneLevels committed ls f).2.heap = f.heap ∧
      ∀ x p, (LevelledForest.pruneLevels committed ls f).2.vertices.lookup x = some p ↔
        f.vertices.lookup x = some p ∧ ∀ l ∈ ls, ¬ f.FiledAt x l := by
  induction ls generalizing f with
  | nil => exact ⟨h, rfl, fun x p => by simp [LevelledForest.pruneLevels]⟩
  | cons l ls ih =>
    obtain ⟨h₁, h₂, h₃⟩ := ih (h.pruneLevel committed l)
    refine ⟨h₁, h₂, fun x p => ?_⟩
    -- what is still indexed is filed where it was
    have hfiled : ∀ l', f.vertices.lookup x = some p → ¬ f.FiledAt x l →
        ((f.pruneLevel committed l).2.FiledAt x l' ↔ f.FiledAt x l') := by
      intro l' hp hl
      have hp' := (h.lookup_pruneLevel committed).2 ⟨hp, hl⟩
      constructor
      · rintro ⟨q, c, hq, hc, rfl⟩
        exact ⟨q, c, ((h.lookup_pruneLevel committed).1 hq).1, hc, rfl⟩
      · rintro ⟨q, c, hq, hc, rfl⟩
        exact ⟨q, c, (h.lookup_pruneLevel committed).2 ⟨hq, hl⟩, hc, rfl⟩
    refine (h₃ x p).trans ?_
    rw [h.lookup_pruneLevel, List.forall_mem_cons]
    constructor
    · rintro ⟨⟨hp, hl⟩, hls⟩
      exact ⟨hp, hl, fun l' hl' => fun hf => hls l' hl' ((hfiled l' hp hl).2 hf)⟩
    · rintro ⟨hp, hl, hls⟩
      exact ⟨⟨hp, hl⟩, fun l' hl' => fun hf => hls l' hl' ((hfiled l' hp hl).1 hf)⟩

/-- `t` is `f` without the containers filed below the level. -/
structure PrunedTo (f : LevelledForest) (l : ℕ) (t : LevelledForest) : Prop where
  sound : t.Sound
  heap : t.heap = f.heap
  lowest : t.lowestLevel = max f.lowestLevel l
  lookup : ∀ x p, t.vertices.lookup x = some p ↔
    f.vertices.lookup x = some p ∧ ∃ l', f.FiledAt x l' ∧ l ≤ l'

/-- Nothing is pruned. -/
theorem Sound.prunedTo (h : f.Sound) : f.PrunedTo 0 f := by
  refine ⟨h, rfl, (Nat.max_zero _).symm, fun x p => ⟨fun hp => ⟨hp, ?_⟩, And.left⟩⟩
  obtain ⟨c, hc, -⟩ := h.indexed x p hp
  exact ⟨c.level, ⟨p, c, hp, hc, rfl⟩, Nat.zero_le _⟩

theorem PrunedTo.filedAt_iff (h : f.PrunedTo l t) {l' : ℕ} : t.FiledAt x l' ↔ f.FiledAt x l' ∧ l ≤ l' := by
  constructor
  · rintro ⟨p, c, hp, hc, rfl⟩
    obtain ⟨hp', l', hl', hle⟩ := (h.lookup x p).1 hp
    have hf : f.FiledAt x c.level := ⟨p, c, hp', h.heap ▸ hc, rfl⟩
    exact ⟨hf, hl'.unique hf ▸ hle⟩
  · rintro ⟨⟨p, c, hp, hc, rfl⟩, hle⟩
    exact ⟨p, c, (h.lookup x p).2 ⟨hp, c.level, ⟨p, c, hp, hc, rfl⟩, hle⟩, h.heap ▸ hc, rfl⟩

theorem PrunedTo.stored_iff (h : f.PrunedTo l t) {c : Block} :
    t.getVertex x = some c ↔ f.getVertex x = some c ∧ ∃ l', f.FiledAt x l' ∧ l ≤ l' := by
  simp only [getVertex, Option.bind_eq_bind, Option.bind_eq_some_iff]
  constructor
  · rintro ⟨p, hp, hc⟩
    obtain ⟨hp', hl⟩ := (h.lookup x p).1 hp
    exact ⟨⟨p, hp', h.heap ▸ hc⟩, hl⟩
  · rintro ⟨⟨p, hp, hc⟩, hl⟩
    exact ⟨p, (h.lookup x p).2 ⟨hp, hl⟩, h.heap ▸ hc⟩

/-- **`PruneUpToLevel`** keeps exactly what is filed at the level or above. -/
theorem Sound.pruneUpToLevel (h : f.Sound) {r : Option (List Block × ℕ)}
    (hr : LevelledForest.pruneUpToLevel l f = .ok r t) : f.PrunedTo l t := by
  have hlow : ∀ x p, f.vertices.lookup x = some p → ∃ l', f.FiledAt x l' ∧ f.lowestLevel ≤ l' := by
    intro x p hp
    obtain ⟨c, hc, -, -, -, hle⟩ := h.indexed x p hp
    exact ⟨c.level, ⟨p, c, hp, hc, rfl⟩, hle⟩
  have hspec := Prog.wp_ok (pruneUpToLevel_spec h.indexed.wf l) hr
  obtain ⟨-, -, hfail, hlowest, hix⟩ := hspec
  rcases pruneUpToLevel_cases hr with ⟨hl, -, rfl⟩ | ⟨committed, hl, -, -, rfl⟩
  · refine ⟨h, rfl, by omega, fun x p => ⟨fun hp => ⟨hp, ?_⟩, fun h => h.1⟩⟩
    obtain ⟨l', hl', hle⟩ := hlow x p hp
    exact ⟨l', hl', by omega⟩
  · obtain ⟨hs, hheap, hlook⟩ := h.pruneLevels committed (List.range' f.lowestLevel (l - f.lowestLevel))
    refine ⟨⟨hix _ h.indexed, hs.shelved, hs.named⟩, hheap, by dsimp only; omega, fun x p => ?_⟩
    refine (hlook x p).trans (and_congr_right fun hp => ?_)
    obtain ⟨l', hl', hle⟩ := hlow x p hp
    constructor
    · intro hnot
      refine ⟨l', hl', ?_⟩
      by_contra hlt
      exact hnot l' (List.mem_range'_1.2 ⟨hle, by omega⟩) hl'
    · rintro ⟨l'', hl'', hle''⟩ m hm hfm
      rw [List.mem_range'_1] at hm
      have := hl''.unique hfm
      omega

/-! ### Adding a vertex -/

theorem Sound.getOrCreate (h : f.Sound) (id : ℕ) (hlow : f.lowestLevel ≤ l) :
    (f.getOrCreateVertexContainer id l).2.Sound where
  indexed := h.indexed.getOrCreate trivial hlow
  shelved := by
    unfold getOrCreateVertexContainer
    cases hk : f.vertices.lookup id with
    | some p => exact h.shelved
    | none =>
      intro l' p hp
      dsimp only at hp ⊢
      have hold : p ∈ f.atLevel l' → ∃ c, (f.heap ++ [⟨id, l, [], none⟩])[p]? = some c ∧ c.level = l' ∧
          (f.vertices.insert id f.heap.length).lookup c.id = some p := by
        intro hp
        obtain ⟨c, hc, hl, hix⟩ := h.shelved l' p hp
        have hne : c.id ≠ id := fun he => by
          rw [he, hk] at hix
          cases hix
        rw [List.getElem?_append_left (List.getElem?_eq_some_iff.1 hc).1]
        exact ⟨c, hc, hl, by rw [AList.lookup_insert_ne hne, hix]⟩
      by_cases hl : l' = l
      · subst hl
        rw [atLevel, AList.lookup_insert, Option.getD_some, List.mem_append, List.mem_singleton] at hp
        rcases hp with hp | rfl
        · exact hold hp
        · exact ⟨⟨id, l', [], none⟩, by simp, rfl, AList.lookup_insert _⟩
      · rw [atLevel, AList.lookup_insert_ne hl] at hp
        exact hold hp
  named := fun x c hx => h.named x c (by rwa [getVertex_getOrCreate h.indexed.wf] at hx)

/-- A container keeps its id and level, and may be given a block with its id. -/
theorem Sound.modifyAt (h : f.Sound) {p : ℕ} (hp : f.vertices.lookup x = some p)
    {g : VertexContainer → VertexContainer} (hg : ∀ c, (g c).id = c.id ∧ (g c).level = c.level)
    (hv : ∀ c b, (g c).vertex = some b → c.vertex = some b ∨ b.id = x) : (f.modifyAt p g).Sound where
  indexed := h.indexed.modifyAt p hg
  shelved := fun l q hq => by
    obtain ⟨c, hc, hl, hix⟩ := h.shelved l q hq
    simp only [LevelledForest.modifyAt, List.getElem?_modify, hc]
    by_cases hpq : p = q
    · exact ⟨g c, by simp [hpq], (hg c).2.trans hl, (hg c).1.symm ▸ hix⟩
    · exact ⟨c, by simp [hpq], hl, hix⟩
  named := fun y b hy => by
    rw [getVertex_modifyAt h.indexed.wf hp] at hy
    split_ifs at hy with hyx
    · obtain ⟨c, hc, hb⟩ := Option.bind_eq_some_iff.1 hy
      obtain ⟨c, hheap, rfl⟩ := Option.map_eq_some_iff.1 hc
      rcases hv c b hb with hb | hb
      · refine h.named y b ?_
        rw [hyx, getVertex, hp]
        simp [hheap, hb]
      · rw [hb, hyx]
    · exact h.named y b hy

/-- Containers stay where they are. -/
def Keeps (f t : LevelledForest) : Prop := ∀ x l, f.FiledAt x l → t.FiledAt x l

theorem Keeps.trans {u : LevelledForest} (h : f.Keeps t) (h' : t.Keeps u) : f.Keeps u :=
  fun x l hl => h' x l (h x l hl)

theorem keeps_getOrCreate (id l : ℕ) : f.Keeps (f.getOrCreateVertexContainer id l).2 := by
  unfold getOrCreateVertexContainer
  cases hk : f.vertices.lookup id with
  | some p => exact fun _ _ h => h
  | none =>
    rintro x l' ⟨p, c, hp, hc, rfl⟩
    have hne : x ≠ id := by
      rintro rfl
      rw [hk] at hp
      cases hp
    refine ⟨p, c, by rw [AList.lookup_insert_ne hne, hp], ?_, rfl⟩
    rw [List.getElem?_append_left (List.getElem?_eq_some_iff.1 hc).1, hc]

theorem keeps_modifyAt (p : ℕ) {g : VertexContainer → VertexContainer} (hg : ∀ c, (g c).level = c.level) :
    f.Keeps (f.modifyAt p g) := by
  rintro x l ⟨q, c, hq, hc, rfl⟩
  simp only [FiledAt, LevelledForest.modifyAt, List.getElem?_modify]
  by_cases hpq : p = q
  · exact ⟨q, g c, hq, by simp [hpq, hc], hg c⟩
  · exact ⟨q, c, hq, by simp [hpq, hc], rfl⟩

/-- A container without a place gets the level asked for. -/
theorem filedAt_getOrCreate (id l : ℕ) (h : f.vertices.lookup id = none) :
    (f.getOrCreateVertexContainer id l).2.FiledAt id l := by
  unfold getOrCreateVertexContainer
  rw [h]
  exact ⟨f.heap.length, ⟨id, l, [], none⟩, AList.lookup_insert _, by simp, rfl⟩

theorem Sound.registerWithParent (h : f.Sound) (p : ℕ) :
    Prog.wp (LevelledForest.registerWithParent p) (fun _ t => t.Sound ∧ f.Keeps t) (fun t => t.Sound) f := by
  unfold LevelledForest.registerWithParent
  simp only [Prog.wp_bind, Prog.wp_get]
  cases f.heap[p]? with
  | none => exact h
  | some c =>
    simp only [Prog.wp_ite, Prog.wp_pure]
    refine ⟨fun _ => ⟨h, fun _ _ h => h⟩, fun _ => ?_⟩
    cases c.vertex.bind Block.parent with
    | none => exact h
    | some pr =>
      obtain ⟨id, l⟩ := pr
      simp only [Prog.wp_ite, Prog.wp_pure, Prog.wp_set]
      refine ⟨fun _ => ⟨h, fun _ _ h => h⟩, fun hlow => ⟨?_, ?_⟩⟩
      · exact (h.getOrCreate id (Nat.not_lt.1 hlow)).modifyAt (lookup_getOrCreate id l)
          (fun _ => ⟨rfl, rfl⟩) fun _ _ hb => Or.inl hb
      · exact (keeps_getOrCreate id l).trans (keeps_modifyAt _ fun _ => rfl)

/-- **`AddVertex`** leaves containers in their place; a new one for the block gets the block's level. -/
theorem Sound.addVertex (h : f.Sound) (b : Block) :
    Prog.wp (LevelledForest.addVertex b)
      (fun _ t => t.Sound ∧ f.Keeps t ∧
        (f.lowestLevel ≤ b.level → f.vertices.lookup b.id = none → t.FiledAt b.id b.level))
      (fun t => t.Sound) f := by
  unfold LevelledForest.addVertex
  simp only [Prog.wp_bind, Prog.wp_get, Prog.wp_ite, Prog.wp_pure]
  refine ⟨fun hlow => ⟨h, fun _ _ h => h, fun hle => by omega⟩, fun hlow => ?_⟩
  have h₁ := h.getOrCreate b.id (Nat.not_lt.1 hlow)
  have hk₁ := keeps_getOrCreate (f := f) b.id b.level
  have hfiled := filedAt_getOrCreate (f := f) b.id b.level
  have hlk := lookup_getOrCreate (f := f) b.id b.level
  generalize f.getOrCreateVertexContainer b.id b.level = pf at h₁ hk₁ hfiled hlk ⊢
  obtain ⟨p, f₁⟩ := pf
  dsimp only at h₁ hk₁ hfiled hlk ⊢
  simp only [Prog.wp_set]
  cases hc : f₁.heap[p]? with
  | none => exact h₁
  | some c =>
    simp only [Prog.wp_ite, Prog.wp_pure]
    refine ⟨fun _ => ⟨h₁, hk₁, fun _ => hfiled⟩, fun _ => ?_⟩
    have h₂ : (f₁.modifyAt p fun c => { c with vertex := some b }).Sound := by
      refine h₁.modifyAt hlk (fun _ => ⟨rfl, rfl⟩) fun c b' hb => Or.inr ?_
      cases hb
      rfl
    have hk₂ : f₁.Keeps (f₁.modifyAt p fun c => { c with vertex := some b }) := keeps_modifyAt p fun _ => rfl
    refine Prog.wp_bind.2 (Prog.wp_set.2 (Prog.wp_mono (h₂.registerWithParent p) ?_ fun _ ht => ht))
    rintro _ t ⟨ht, hkt⟩
    exact ⟨ht, (hk₁.trans hk₂).trans hkt, fun _ hn => (hk₂.trans hkt) _ _ (hfiled hn)⟩

/-- `AddVertex` returns, unless the block has no certificate. -/
theorem addVertex_wp (hf : f.WF) (b : Block) :
    Prog.wp (addVertex b) (fun _ _ => True) (fun _ => b.qc = none) f := by
  unfold addVertex
  refine Prog.wp_bind.2 (Prog.wp_get.2 (Prog.wp_ite.2 ⟨fun _ => trivial, fun _ => ?_⟩))
  have hwf := wf_getOrCreate hf b.id b.level
  have hlk := lookup_getOrCreate (f := f) b.id b.level
  generalize f.getOrCreateVertexContainer b.id b.level = pf at hwf hlk ⊢
  obtain ⟨k, f₁⟩ := pf
  obtain ⟨c, hc, -⟩ := hwf _ _ hlk
  refine Prog.wp_bind.2 (Prog.wp_set.2 ?_)
  dsimp only at hc ⊢
  rw [hc]
  refine Prog.wp_ite.2 ⟨fun _ => trivial, fun _ => Prog.wp_bind.2 (Prog.wp_set.2 ?_)⟩
  unfold registerWithParent
  refine Prog.wp_bind.2 (Prog.wp_get.2 ?_)
  simp only [modifyAt, List.getElem?_modify, if_true, hc]
  refine Prog.wp_ite.2 ⟨fun _ => trivial, fun _ => ?_⟩
  split
  · next hp => simpa [Block.parent] using hp
  · exact Prog.wp_ite.2 ⟨fun _ => trivial, fun _ => trivial⟩

end LevelledForest

namespace BlockChain

variable {bc t : BlockChain}

/-- **A commit** keeps exactly what is filed at the level of the committed block or above. -/
theorem commitBlock_prunedTo (h : bc.forrest.Sound) {id : ℕ} {view : ℤ}
    {r : Option (List Block × List Block)} (hr : commitBlock id view bc = .ok r t) {c : Block}
    (hc : bc.forrest.getVertex id = some c) : bc.forrest.PrunedTo c.level t.forrest := by
  unfold commitBlock at hr
  rw [Prog.get_bind_apply] at hr
  simp only [hc] at hr
  rw [Prog.set_bind_apply] at hr
  obtain ⟨l, s, hloop, hr⟩ := Prog.bind_eq_ok hr
  have hdel := Prog.wp_ok (commitLoop_spec view _ c []) hloop
  have hf : s.forrest = bc.forrest := hdel.1.forrest
  obtain ⟨pruned, s', hprune, hr⟩ := Prog.bind_eq_ok hr
  obtain ⟨f, hp, rfl⟩ := Prog.zoom_eq_ok hprune
  rw [hf] at hp
  have hcut := h.pruneUpToLevel hp
  cases pruned with
  | none =>
    cases hr
    exact hcut
  | some res =>
    cases hr
    exact hcut

theorem exists_prunedTo (h : bc.forrest.Sound) {id : ℕ} {view : ℤ} {r : Option (List Block × List Block)}
    (hr : commitBlock id view bc = .ok r t) : ∃ l, bc.forrest.PrunedTo l t.forrest := by
  cases hc : bc.forrest.getVertex id with
  | some c => exact ⟨c.level, commitBlock_prunedTo h hr hc⟩
  | none =>
    unfold commitBlock at hr
    rw [Prog.get_bind_apply] at hr
    simp only [hc] at hr
    cases hr
    exact ⟨0, h.prunedTo⟩

end BlockChain

end Bamboo
