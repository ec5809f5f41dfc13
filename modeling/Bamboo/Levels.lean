import Bamboo.BlockChain

/-!
# The levels of the forest

The index by level and the index by id hold the same containers.  With that, and with one block for each
level, what a pruning reports as forked can be told from the stored blocks alone.

* `LevelledForest.Levelled`: the containers listed at a level belong there and are indexed by their id;
* `committedLevels_spec`: the levels collected are those of the stored ancestors;
* `mem_forked`: which blocks are reported as forked;
* `BlockChain.commitBlock_cases`: what a commit does.
-/

namespace Bamboo

namespace LevelledForest

variable {f : LevelledForest}

/-- The containers listed at a level have this level, are the ones indexed under their id, and hold
blocks with this id and level. -/
def Levelled (f : LevelledForest) : Prop :=
  ∀ l p, p ∈ f.atLevel l → ∃ c, f.heap[p]? = some c ∧ c.level = l ∧ f.vertices.lookup c.id = some p ∧
    ∀ b, c.vertex = some b → b.id = c.id ∧ b.level = l

theorem levelled_new : new.Levelled := by
  intro l p h
  simp [new, atLevel] at h

theorem Levelled.getOrCreate (h : f.Levelled) (id level : ℕ) :
    (f.getOrCreateVertexContainer id level).2.Levelled := by
  unfold getOrCreateVertexContainer
  cases hk : f.vertices.lookup id with
  | some p => exact h
  | none =>
    intro l p hp
    dsimp only at hp ⊢
    have hold : p ∈ f.atLevel l → ∃ c, (f.heap ++ [⟨id, level, [], none⟩])[p]? = some c ∧ c.level = l ∧
        (f.vertices.insert id f.heap.length).lookup c.id = some p ∧
        ∀ b, c.vertex = some b → b.id = c.id ∧ b.level = l := by
      intro hp
      obtain ⟨c, hc, hl, hix, hb⟩ := h l p hp
      have hlt : p < f.heap.length := (List.getElem?_eq_some_iff.1 hc).1
      have hne : c.id ≠ id := fun he => by
        rw [he, hk] at hix
        cases hix
      exact ⟨c, by rw [List.getElem?_append_left hlt, hc], hl, by rw [AList.lookup_insert_ne hne, hix], hb⟩
    by_cases hl : l = level
    · subst hl
      rw [atLevel, AList.lookup_insert, Option.getD_some, List.mem_append, List.mem_singleton] at hp
      rcases hp with hp | rfl
      · exact hold hp
      · exact ⟨⟨id, l, [], none⟩, by simp, rfl, AList.lookup_insert _, fun b hb => by cases hb⟩
    · rw [atLevel, AList.lookup_insert_ne hl] at hp
      exact hold hp

/-- A container keeps its id and level, and may be given a block with these. -/
theorem Levelled.modifyAt (h : f.Levelled) (p : ℕ) {g : VertexContainer → VertexContainer}
    (hg : ∀ c, f.heap[p]? = some c → (g c).id = c.id ∧ (g c).level = c.level ∧
      ((g c).vertex = c.vertex ∨ ∃ b, (g c).vertex = some b ∧ b.id = c.id ∧ b.level = c.level)) :
    (f.modifyAt p g).Levelled := by
  intro l q hq
  obtain ⟨c, hc, hl, hix, hb⟩ := h l q hq
  simp only [LevelledForest.modifyAt, List.getElem?_modify, hc]
  by_cases hpq : p = q
  · subst hpq
    obtain ⟨hid, hlev, hv⟩ := hg c hc
    refine ⟨g c, by simp, hlev.trans hl, hid.symm ▸ hix, fun b hgb => ?_⟩
    rw [hid]
    rcases hv with hv | ⟨b', hv, hid', hl'⟩
    · exact hb b (hv.symm.trans hgb)
    · rw [hv] at hgb
      cases hgb
      exact ⟨hid', hl'.trans hl⟩
  · exact ⟨c, by simp [hpq], hl, hix, hb⟩

theorem registerWithParent_levelled (h : f.Levelled) (p : ℕ) :
    Prog.wp (registerWithParent p) (fun _ t => t.Levelled) (fun t => t.Levelled) f := by
  unfold registerWithParent
  simp only [Prog.wp_bind, Prog.wp_get]
  cases f.heap[p]? with
  | none => exact h
  | some c =>
    simp only [Prog.wp_ite, Prog.wp_pure]
    refine ⟨fun _ => h, fun _ => ?_⟩
    cases c.vertex.bind Block.parent with
    | none => exact h
    | some pr =>
      simp only [Prog.wp_ite, Prog.wp_pure, Prog.wp_set]
      exact ⟨fun _ => h, fun _ => (h.getOrCreate _ _).modifyAt _ fun _ _ => ⟨rfl, rfl, Or.inl rfl⟩⟩

/-- `AddVertex` keeps the indices in line when a container for the block's id has the block's level. -/
theorem addVertex_levelled {lv : ℕ → ℕ → Prop} (h : f.Levelled) (hix : f.Indexed lv) {b : Block}
    (hb : lv b.id b.level) (huniq : ∀ l, lv b.id l → l = b.level) :
    Prog.wp (addVertex b) (fun _ t => t.Levelled) (fun t => t.Levelled) f := by
  unfold addVertex
  simp only [Prog.wp_bind, Prog.wp_get, Prog.wp_ite, Prog.wp_pure]
  refine ⟨fun _ => h, fun hlow => ?_⟩
  have h₁ := h.getOrCreate b.id b.level
  have hix₁ : (f.getOrCreateVertexContainer b.id b.level).2.Indexed lv :=
    hix.getOrCreate hb (by omega)
  have hlk := lookup_getOrCreate (f := f) b.id b.level
  generalize f.getOrCreateVertexContainer b.id b.level = pf at h₁ hix₁ hlk ⊢
  obtain ⟨p, f₁⟩ := pf
  dsimp only at h₁ hix₁ hlk ⊢
  obtain ⟨c, hc, hid, hlv, -⟩ := hix₁ b.id p hlk
  simp only [Prog.wp_set, hc, Prog.wp_ite, Prog.wp_pure]
  refine ⟨fun _ => h₁, fun _ => ?_⟩
  have h₂ : (f₁.modifyAt p fun c => { c with vertex := some b }).Levelled := by
    refine h₁.modifyAt p fun c' hc' => ⟨rfl, rfl, Or.inr ⟨b, rfl, ?_⟩⟩
    rw [hc] at hc'
    cases hc'
    exact ⟨hid.symm, (huniq _ hlv).symm⟩
  exact registerWithParent_levelled h₂ p

/-! ### Pruning -/

theorem Levelled.pruneLevel (h : f.Levelled) (committed : List ℕ) (l : ℕ) :
    (f.pruneLevel committed l).2.Levelled := by
  intro l' p hp
  have hne : l' ≠ l := by
    rintro rfl
    simp [LevelledForest.pruneLevel, atLevel] at hp
  have hp' : p ∈ f.atLevel l' := by
    simpa [LevelledForest.pruneLevel, atLevel, AList.lookup_erase_ne hne] using hp
  obtain ⟨c, hc, hl, hix, hb⟩ := h l' p hp'
  refine ⟨c, hc, hl, ?_, hb⟩
  simp only [LevelledForest.pruneLevel, lookup_foldl_erase]
  rw [if_neg]
  · exact hix
  · -- a container of the pruned level has another id
    intro hmem
    obtain ⟨c', hc', hid⟩ := List.mem_map.1 hmem
    obtain ⟨q, hq, hqc⟩ := List.mem_filterMap.1 hc'
    obtain ⟨c'', hc'', hl'', hix'', -⟩ := h l q hq
    rw [hqc] at hc''
    cases hc''
    rw [hid, hix] at hix''
    cases hix''
    rw [hc] at hqc
    cases hqc
    exact hne (hl.symm.trans hl'')

theorem Levelled.pruneLevels (h : f.Levelled) (committed ls : List ℕ) :
    (pruneLevels committed ls f).2.Levelled := by
  induction ls generalizing f with
  | nil => exact h
  | cons l ls ih => exact ih (h.pruneLevel committed l)

/-- The block is in a container listed at the level. -/
def ListedAt (f : LevelledForest) (l : ℕ) (b : Block) : Prop :=
  ∃ p ∈ f.atLevel l, ∃ c, f.heap[p]? = some c ∧ c.vertex = some b

theorem listedAt_pruneLevel (committed : List ℕ) {l l' : ℕ} (hne : l' ≠ l) {b : Block} :
    (f.pruneLevel committed l).2.ListedAt l' b ↔ f.ListedAt l' b := by
  have hat : (f.pruneLevel committed l).2.atLevel l' = f.atLevel l' := by
    simp [LevelledForest.pruneLevel, atLevel, AList.lookup_erase_ne hne]
  unfold ListedAt
  rw [hat]
  exact Iff.rfl

theorem listedAt_pruneLevels {committed ls : List ℕ} {l : ℕ} (hl : l ∉ ls) {b : Block} :
    (pruneLevels committed ls f).2.ListedAt l b ↔ f.ListedAt l b := by
  induction ls generalizing f with
  | nil => exact Iff.rfl
  | cons l' ls ih =>
    rw [List.mem_cons, not_or] at hl
    exact (ih hl.2).trans (listedAt_pruneLevel committed hl.1)

/-- **Which blocks are reported as forked**: those listed at a level that is not committed, and above 1. -/
theorem mem_forked {committed ls : List ℕ} (hls : ls.Nodup) {b : Block} :
    b ∈ (pruneLevels committed ls f).1.1 ↔
      ∃ l ∈ ls, l ∉ committed ∧ 1 < l ∧ f.ListedAt l b := by
  induction ls generalizing f with
  | nil => simp [pruneLevels]
  | cons l ls ih =>
    obtain ⟨hl, hls⟩ := List.nodup_cons.1 hls
    show b ∈ (f.pruneLevel committed l).1.1 ++
      (pruneLevels committed ls (f.pruneLevel committed l).2).1.1 ↔ _
    rw [List.mem_append, ih hls]
    have hother : ∀ l' ∈ ls, ((f.pruneLevel committed l).2.ListedAt l' b ↔ f.ListedAt l' b) :=
      fun l' hl' => listedAt_pruneLevel committed (ne_of_mem_of_not_mem hl' hl)
    have hhere : b ∈ (f.pruneLevel committed l).1.1 ↔ l ∉ committed ∧ 1 < l ∧ f.ListedAt l b := by
      simp only [LevelledForest.pruneLevel, ListedAt]
      split_ifs with hc
      · simp only [List.mem_filterMap, hc.1, hc.2, not_false_eq_true, true_and]
        constructor
        · rintro ⟨c, ⟨p, hp, hpc⟩, hcb⟩
          exact ⟨p, hp, c, hpc, hcb⟩
        · rintro ⟨p, hp, c, hpc, hcb⟩
          exact ⟨c, ⟨p, hp, hpc⟩, hcb⟩
      · simp only [List.not_mem_nil, false_iff]
        exact fun h => hc ⟨h.1, h.2.1⟩
    rw [hhere]
    constructor
    · rintro (h | ⟨l', hl', h1, h2, h3⟩)
      · exact ⟨l, List.mem_cons_self, h⟩
      · exact ⟨l', List.mem_cons_of_mem _ hl', h1, h2, (hother l' hl').1 h3⟩
    · rintro ⟨l', hl', h1, h2, h3⟩
      rcases List.mem_cons.1 hl' with rfl | hl'
      · exact Or.inl ⟨h1, h2, h3⟩
      · exact Or.inr ⟨l', hl', h1, h2, (hother l' hl').2 h3⟩

/-! ### Stored ancestors -/

/-- `p` is the stored parent of `b`. -/
def ParentOf (f : LevelledForest) (b p : Block) : Prop := f.getVertex b.prevID = some p

theorem ListedAt.stored (h : f.Levelled) {l : ℕ} {b : Block} (hb : f.ListedAt l b) :
    f.getVertex b.id = some b ∧ b.level = l := by
  obtain ⟨p, hp, c, hc, hcb⟩ := hb
  obtain ⟨c', hc', -, hix, hv⟩ := h l p hp
  rw [hc] at hc'
  cases hc'
  obtain ⟨hid, hl⟩ := hv b hcb
  refine ⟨?_, hl⟩
  unfold getVertex
  rw [hid, hix]
  simp [hc, hcb]

variable {lv : ℕ → ℕ → Prop}

/-- A stored block has the id it is stored under, and is listed at its level. -/
theorem Levelled.listedAt (h : f.Levelled) (hix : f.Indexed lv) {x : ℕ} {b : Block}
    (hx : f.getVertex x = some b) : b.id = x ∧ f.ListedAt b.level b ∧ f.lowestLevel ≤ b.level := by
  simp only [getVertex, Option.bind_eq_bind, Option.bind_eq_some_iff] at hx
  obtain ⟨p, hp, c, hc, hcb⟩ := hx
  obtain ⟨c', hc', hid, -, hmem, hlow⟩ := hix x p hp
  rw [hc] at hc'
  cases hc'
  obtain ⟨c', hc', -, -, hv⟩ := h _ _ hmem
  rw [hc] at hc'
  cases hc'
  obtain ⟨hbid, hbl⟩ := hv b hcb
  exact ⟨hbid.trans hid, hbl ▸ ⟨p, hmem, c, hc, hcb⟩, hbl ▸ hlow⟩

/-- The stored blocks form a forest with one block at a level, and no parents below level 2. -/
structure Planted (lv : ℕ → ℕ → Prop) (f : LevelledForest) : Prop where
  levelled : f.Levelled
  indexed : f.Indexed lv
  one : ∀ x y b b', f.getVertex x = some b → f.getVertex y = some b' → b.level = b'.level → b = b'
  above : ∀ x b p, f.getVertex x = some b → f.ParentOf b p → 1 ≤ p.level ∧ p.level < b.level
  cert : ∀ x b, f.getVertex x = some b → b.qc ≠ none

/-- **The committed levels** are those of the stored ancestors. -/
theorem Planted.mem_committedLevels (h : f.Planted lv) {fuel : ℕ} {acc ls : List ℕ} {x : ℕ} {b : Block}
    (hb : f.getVertex x = some b) (hr : f.committedLevels fuel b.level acc = .ok ls) {m : ℕ} :
    m ∈ ls ↔ m ∈ acc ∨ ∃ a, Relation.TransGen f.ParentOf b a ∧ a.level = m := by
  induction fuel generalizing x b acc with
  | zero => cases hr
  | succ fuel ih =>
    have hnone : ls = acc → (∀ p, ¬ f.ParentOf b p) →
        (m ∈ ls ↔ m ∈ acc ∨ ∃ a, Relation.TransGen f.ParentOf b a ∧ a.level = m) := by
      rintro rfl hno
      refine ⟨Or.inl, fun hm => hm.resolve_right ?_⟩
      rintro ⟨a, ha, -⟩
      obtain ⟨p, hp, -⟩ := Relation.TransGen.head'_iff.1 ha
      exact hno p hp
    unfold committedLevels at hr
    split_ifs at hr with hcond
    · cases hat : f.atLevel b.level with
      | nil =>
        rw [hat] at hr
        cases hr
      | cons p ps =>
        simp only [hat] at hr
        cases hv : f.heap[p]?.bind VertexContainer.vertex with
        | none =>
          rw [hv] at hr
          cases hr
        | some v =>
          -- the first container of the level holds the only block of the level
          obtain ⟨c, hc, hcv⟩ := Option.bind_eq_some_iff.1 hv
          have hlist : f.ListedAt b.level v := ⟨p, by rw [hat]; exact List.mem_cons_self, c, hc, hcv⟩
          obtain ⟨hst, hlev⟩ := hlist.stored h.levelled
          obtain rfl : v = b := h.one _ _ _ _ hst hb hlev
          obtain ⟨qc, hqc⟩ := Option.ne_none_iff_exists'.1 (h.cert _ _ hst)
          have hpar : v.parent = some (v.prevID, uint64 qc.view) := by rw [Block.parent, hqc]; rfl
          simp only [hv, hpar] at hr
          cases hp : f.getVertex v.prevID with
          | none =>
            rw [hp] at hr
            cases hr
            refine hnone rfl fun q hq => ?_
            rw [ParentOf, hp] at hq
            cases hq
          | some q =>
            simp only [hp] at hr
            rw [if_neg (Nat.not_lt.2 (h.levelled.listedAt h.indexed hp).2.2)] at hr
            rw [ih hp hr, List.mem_cons]
            constructor
            · rintro ((rfl | hm) | ⟨a, ha, hal⟩)
              · exact Or.inr ⟨q, .single hp, rfl⟩
              · exact Or.inl hm
              · exact Or.inr ⟨a, .head hp ha, hal⟩
            · rintro (hm | ⟨a, ha, hal⟩)
              · exact Or.inl (Or.inr hm)
              · obtain ⟨q', hq', hrest⟩ := Relation.TransGen.head'_iff.1 ha
                rw [ParentOf, hp] at hq'
                cases hq'
                rcases Relation.reflTransGen_iff_eq_or_transGen.1 hrest with rfl | htr
                · exact Or.inl (Or.inl hal.symm)
                · exact Or.inr ⟨a, htr, hal⟩
    · cases hr
      refine hnone rfl fun q hq => ?_
      have habove := h.above _ _ _ hb hq
      have hlow := (h.levelled.listedAt h.indexed hb).2.2
      omega

theorem Indexed.wf (h : f.Indexed lv) : f.WF := by
  intro id p hp
  obtain ⟨c, hc, hid, -⟩ := h id p hp
  exact ⟨c, hc, hid⟩

/-- What a pruning up to the level of a stored block does: it forgets the blocks below, and reports those
of them that are above level 1 and not ancestors of the block. -/
structure Cut (f : LevelledForest) (lv : ℕ → ℕ → Prop) (c : Block) (forked : List Block)
    (t : LevelledForest) : Prop where
  forked_iff : ∀ b, b ∈ forked ↔ f.getVertex b.id = some b ∧ b.level < c.level ∧ 1 < b.level ∧
    ¬ Relation.TransGen f.ParentOf c b
  stored_iff : ∀ b, t.getVertex b.id = some b ↔ f.getVertex b.id = some b ∧ c.level ≤ b.level
  planted : t.Planted lv
  lowest : t.lowestLevel = c.level

theorem ParentOf.stored {b p : Block} (h : f.ParentOf b p) (hl : f.Levelled) (hix : f.Indexed lv) :
    f.getVertex p.id = some p := by
  rw [(hl.listedAt hix h).1]
  exact h

theorem stored_of_transGen (hl : f.Levelled) (hix : f.Indexed lv) {c a : Block}
    (h : Relation.TransGen f.ParentOf c a) : f.getVertex a.id = some a := by
  cases h with
  | single h => exact h.stored hl hix
  | tail _ h => exact h.stored hl hix

/-- Stored ancestors are at lower levels. -/
theorem Planted.level_lt (h : f.Planted lv) {x : ℕ} {c a : Block} (hc : f.getVertex x = some c)
    (ha : Relation.TransGen f.ParentOf c a) : a.level < c.level := by
  induction ha with
  | single hp => exact (h.above x c _ hc hp).2
  | tail hca hp ih =>
    have hst := stored_of_transGen h.levelled h.indexed hca
    exact Nat.lt_trans (h.above _ _ _ hst hp).2 ih

theorem Planted.pruneUpToLevel (h : f.Planted lv) {x : ℕ} {c : Block} (hc : f.getVertex x = some c)
    {r : Option (List Block × ℕ)} {t : LevelledForest}
    (hr : LevelledForest.pruneUpToLevel c.level f = .ok r t) :
    ∃ forked k, r = some (forked, k) ∧ f.Cut lv c forked t := by
  have hlow := (h.levelled.listedAt h.indexed hc).2.2
  obtain ⟨hwf, hst, -, -, hix⟩ := Prog.wp_ok (pruneUpToLevel_spec h.indexed.wf c.level) hr
  rcases pruneUpToLevel_cases hr with ⟨hlt, -⟩ | ⟨committed, -, hcl, rfl, rfl⟩
  · exact absurd hlow (Nat.not_le.2 hlt)
  have hmem := fun m => h.mem_committedLevels hc hcl (m := m)
  simp only [List.not_mem_nil, false_or] at hmem
  -- a block and an ancestor at its level are the same
  have hanc : ∀ b, f.getVertex b.id = some b →
      (b.level ∈ committed ↔ Relation.TransGen f.ParentOf c b) := by
    intro b hb
    rw [hmem]
    constructor
    · rintro ⟨a, ha, hal⟩
      obtain rfl := h.one _ _ _ _ (stored_of_transGen h.levelled h.indexed ha) hb hal
      exact ha
    · exact fun hb => ⟨b, hb, rfl⟩
  have hlist : ∀ b, f.getVertex b.id = some b → f.ListedAt b.level b := fun b hb =>
    (h.levelled.listedAt h.indexed hb).2.1
  have hlev : ({ (pruneLevels committed (List.range' f.lowestLevel (c.level - f.lowestLevel)) f).2 with
      lowestLevel := c.level } : LevelledForest).Levelled := h.levelled.pruneLevels committed _
  refine ⟨_, _, rfl, ?_, ?_, ?_, rfl⟩
  · intro b
    have hnd : (List.range' f.lowestLevel (c.level - f.lowestLevel)).Nodup := List.nodup_range'
    rw [mem_forked hnd]
    constructor
    · rintro ⟨l, hl, hnot, h1, hb⟩
      obtain ⟨hst, rfl⟩ := hb.stored h.levelled
      rw [List.mem_range'_1] at hl
      exact ⟨hst, by omega, h1, fun ha => hnot ((hanc b hst).2 ha)⟩
    · rintro ⟨hb, hlt, h1, hnot⟩
      refine ⟨b.level, ?_, fun hm => hnot ((hanc b hb).1 hm), h1, hlist b hb⟩
      rw [List.mem_range'_1]
      have := (h.levelled.listedAt h.indexed hb).2.2
      omega
  · intro b
    constructor
    · intro hb
      exact ⟨hst _ _ hb, (hlev.listedAt (hix _ h.indexed) hb).2.2⟩
    · rintro ⟨hb, hle⟩
      have hout : b.level ∉ List.range' f.lowestLevel (c.level - f.lowestLevel) := by
        rw [List.mem_range'_1]
        omega
      exact ((listedAt_pruneLevels hout).2 (hlist b hb)).stored (h.levelled.pruneLevels committed _) |>.1
  · constructor
    · exact hlev
    · exact hix _ h.indexed
    · exact fun x y b b' hb hb' => h.one x y b b' (hst _ _ hb) (hst _ _ hb')
    · exact fun x b p hb hp => h.above x b p (hst _ _ hb) (hst _ _ hp)
    · exact fun x b hb => h.cert x b (hst _ _ hb)

end LevelledForest

namespace BlockChain

variable {bc t : BlockChain}

/-- What a `CommitBlock` that returns has done: it did not find the block, or committed the stored chain
down to the lowest level, which is cut off. -/
theorem commitBlock_cases {lv : ℕ → ℕ → Prop} (h : bc.forrest.Planted lv) {id : ℕ} {view : ℤ}
    {r : Option (List Block × List Block)} (hr : commitBlock id view bc = .ok r t) :
    (r = none ∧ bc.forrest.getVertex id = none ∧ t = bc) ∨
      ∃ c l forked, r = some (l, forked) ∧ bc.forrest.getVertex id = some c ∧
        Above bc.forrest bc.forrest.lowestLevel c l ∧ bc.forrest.Cut lv c forked t.forrest := by
  unfold commitBlock at hr
  rw [Prog.get_bind_apply] at hr
  cases hc : bc.forrest.getVertex id with
  | none =>
    simp only [hc] at hr
    cases hr
    exact Or.inl ⟨rfl, rfl, rfl⟩
  | some c =>
    simp only [hc] at hr
    rw [Prog.set_bind_apply] at hr
    obtain ⟨l, s, hloop, hr⟩ := Prog.bind_eq_ok hr
    obtain ⟨hdel, l', rfl, habove⟩ := Prog.wp_ok (commitLoop_spec view _ c []) hloop
    have hf : s.forrest = bc.forrest := hdel.forrest
    obtain ⟨pruned, s', hprune, hr⟩ := Prog.bind_eq_ok hr
    obtain ⟨f, hp, rfl⟩ := Prog.zoom_eq_ok hprune
    rw [hf] at hp
    obtain ⟨forked, k, rfl, hcut⟩ := h.pruneUpToLevel hc hp
    cases hr
    exact Or.inr ⟨c, l, forked, rfl, rfl, habove, hcut⟩

end BlockChain

end Bamboo
