import Bamboo.Walks

/-!
# Forests that do not panic

`PruneUpToLevel` looks at the first container of a level and dereferences its block, and both it and
`CommitBlock` follow parents until they run out.  This goes well in a forest whose levels do not start
with a placeholder once they have a block, and whose blocks are above their parents.  `AddVertex` keeps a
forest so if it is given a block that fits.

* `LevelledForest.Tidy`, `LevelledForest.Fits`: such a forest, and a block that may be added to it;
* `Fits.addVertex`, `BlockChain.commitBlock_tidy`: the operations return, and keep the forest tidy.
-/

namespace Bamboo

namespace LevelledForest

variable {f t : LevelledForest} {b : Block}

/-- The container behind the pointer is FULL. -/
def Filled (f : LevelledForest) (p : ℕ) : Prop := ∃ c b, f.heap[p]? = some c ∧ c.vertex = some b

/-- A level with a FULL container starts with one. -/
def Fronted (f : LevelledForest) : Prop :=
  ∀ l p ps, f.atLevel l = p :: ps → ∀ q ∈ ps, f.Filled q → f.Filled p

/-- The walks through the forest find a block on every level they come to, and go down. -/
structure Tidy (f : LevelledForest) : Prop where
  levelled : f.Levelled
  indexed : f.Indexed fun _ _ => True
  fronted : f.Fronted
  above : ∀ x c a, f.getVertex x = some c → f.ParentOf c a → a.level < c.level
  cert : ∀ x c, f.getVertex x = some c → c.qc ≠ none

/-- A block that fits into the forest: the container that waits for it has its level, this level does not
start with a placeholder for another block, and the block is above its parent and below its children. -/
structure Fits (f : LevelledForest) (b : Block) : Prop where
  level : ∀ p c, f.vertices.lookup b.id = some p → f.heap[p]? = some c → c.level = b.level
  first : ∀ p c ps, f.atLevel b.level = p :: ps → f.heap[p]? = some c → c.id = b.id ∨ f.Filled p
  noLoop : b.prevID ≠ b.id
  parent : ∀ a, f.ParentOf b a → a.level < b.level
  children : ∀ x c, f.getVertex x = some c → c.prevID = b.id → b.level < c.level

instance (f : LevelledForest) (p : ℕ) : Decidable (f.Filled p) :=
  decidable_of_iff ((f.heap[p]?.bind VertexContainer.vertex).isSome = true) (by
    simp only [Filled, Option.isSome_iff_exists, Option.bind_eq_some_iff]
    exact ⟨fun ⟨b, c, h⟩ => ⟨c, b, h⟩, fun ⟨c, b, h⟩ => ⟨b, c, h⟩⟩)

/-- `Fits` as a test. -/
def fits (f : LevelledForest) (b : Block) : Bool :=
  (f.vertices.lookup b.id).all (fun p => f.heap[p]?.all fun c => decide (c.level = b.level)) &&
  (f.atLevel b.level).head?.all (fun p => f.heap[p]?.all fun c => decide (c.id = b.id ∨ f.Filled p)) &&
  decide (b.prevID ≠ b.id) &&
  (f.getVertex b.prevID).all (fun a => decide (a.level < b.level)) &&
  f.vertices.keys.all (fun x => (f.getVertex x).all fun c => decide (c.prevID = b.id → b.level < c.level))

theorem fits_of_test (h : f.fits b = true) : f.Fits b := by
  simp only [fits, Bool.and_eq_true, decide_eq_true_eq, Option.all_eq_true, List.all_eq_true,
    List.head?_eq_some_iff] at h
  obtain ⟨⟨⟨⟨hlevel, hfirst⟩, hloop⟩, hparent⟩, hchildren⟩ := h
  refine ⟨fun p c hp hc => hlevel p hp c hc, fun p c ps hat hc => hfirst p ⟨ps, hat⟩ c hc, hloop, hparent, ?_⟩
  intro x c hc
  have hx := hc
  simp only [getVertex, Option.bind_eq_bind, Option.bind_eq_some_iff] at hx
  obtain ⟨p, hp, -⟩ := hx
  exact hchildren x (GoMap.mem_keys hp) c hc

theorem tidy_new : new.Tidy := by
  have hnone : ∀ x, new.getVertex x = none := fun x => by simp [new, getVertex]
  refine ⟨levelled_new, indexed_new, ?_, ?_, ?_⟩
  · intro l p ps hat
    simp [new, atLevel] at hat
  · intro x c a hc
    rw [hnone] at hc
    cases hc
  · intro x c hc
    rw [hnone] at hc
    cases hc

/-! ### Walks end -/

/-- From the level of a stored block the walk ends, or goes down to the level of another one. -/
theorem Tidy.sinking (h : f.Tidy) : f.Sinking := by
  intro x b hb
  unfold LevelledForest.levelStep
  split_ifs
  · obtain ⟨-, ⟨p, hp, c, hc, hcb⟩, -⟩ := h.levelled.listedAt h.indexed hb
    cases hat : f.atLevel b.level with
    | nil =>
      rw [hat] at hp
      cases hp
    | cons q ps =>
      -- the level of the block starts with a FULL container
      have hfull : f.Filled q := by
        rw [hat, List.mem_cons] at hp
        rcases hp with rfl | hp
        · exact ⟨c, b, hc, hcb⟩
        · exact h.fronted _ q ps hat p hp ⟨c, b, hc, hcb⟩
      obtain ⟨d, b', hd, hdb⟩ := hfull
      obtain ⟨hst, hlev⟩ := ListedAt.stored h.levelled (f := f) (l := b.level) (b := b')
        ⟨q, by rw [hat]; exact List.mem_cons_self, d, hd, hdb⟩
      obtain ⟨qc, hqc⟩ := Option.ne_none_iff_exists'.1 (h.cert _ _ hst)
      have hpar : b'.parent = some (b'.prevID, uint64 qc.view) := by
        rw [Block.parent, hqc]
        rfl
      simp only [hd, Option.bind_some, hdb, hpar]
      cases hv : f.getVertex b'.prevID with
      | none => exact Or.inl rfl
      | some a =>
        dsimp only
        have hlow := (h.levelled.listedAt h.indexed hv).2.2
        rw [if_neg (Nat.not_lt.2 hlow)]
        exact Or.inr ⟨b'.prevID, a, hv, hlev ▸ h.above _ _ _ hst hv, rfl⟩
  · exact Or.inl rfl

/-! ### Pruning -/

/-- `t` is `f` without some of its levels. -/
structure Shrinks (f t : LevelledForest) : Prop where
  heap : t.heap = f.heap
  vertices : ∀ id p, t.vertices.lookup id = some p → f.vertices.lookup id = some p
  atLevel : ∀ l, t.atLevel l = [] ∨ t.atLevel l = f.atLevel l

theorem Shrinks.refl (f : LevelledForest) : f.Shrinks f := ⟨rfl, fun _ _ h => h, fun _ => Or.inr rfl⟩

theorem Shrinks.trans {u : LevelledForest} (h : f.Shrinks t) (h' : t.Shrinks u) : f.Shrinks u where
  heap := h'.heap.trans h.heap
  vertices := fun id p hp => h.vertices id p (h'.vertices id p hp)
  atLevel := fun l => by
    rcases h'.atLevel l with hl | hl
    · exact Or.inl hl
    · rw [hl]
      exact h.atLevel l

theorem Shrinks.stored (h : f.Shrinks t) {x : ℕ} (hx : t.getVertex x = some b) :
    f.getVertex x = some b := by
  simp only [getVertex, Option.bind_eq_bind, Option.bind_eq_some_iff] at hx ⊢
  obtain ⟨p, hp, hrest⟩ := hx
  exact ⟨p, h.vertices x p hp, h.heap ▸ hrest⟩

theorem Shrinks.filled (h : f.Shrinks t) {p : ℕ} : t.Filled p ↔ f.Filled p := by
  unfold Filled
  rw [h.heap]

/-- A level that is still there is as before. -/
theorem Shrinks.cons (h : f.Shrinks t) {l p : ℕ} {ps : List ℕ} (hl : t.atLevel l = p :: ps) :
    f.atLevel l = p :: ps := by
  rcases h.atLevel l with he | he
  · rw [he] at hl
    cases hl
  · rw [← he, hl]

theorem pruneLevel_shrinks (committed : List ℕ) (l : ℕ) : f.Shrinks (f.pruneLevel committed l).2 where
  heap := rfl
  vertices := fun id p hp => by
    simp only [LevelledForest.pruneLevel, lookup_foldl_erase] at hp
    split_ifs at hp
    exact hp
  atLevel := fun l' => by
    by_cases hl : l' = l
    · subst hl
      exact Or.inl (by simp [LevelledForest.pruneLevel, LevelledForest.atLevel])
    · exact Or.inr (by simp [LevelledForest.pruneLevel, LevelledForest.atLevel, AList.lookup_erase_ne hl])

theorem pruneLevels_shrinks (committed ls : List ℕ) : f.Shrinks (pruneLevels committed ls f).2 := by
  induction ls generalizing f with
  | nil => exact .refl f
  | cons l ls ih => exact (pruneLevel_shrinks committed l).trans ih

theorem Tidy.shrinks (h : f.Tidy) (hs : f.Shrinks t) (hl : t.Levelled)
    (hix : t.Indexed fun _ _ => True) : t.Tidy where
  levelled := hl
  indexed := hix
  fronted := fun l p ps hat q hq hfull =>
    hs.filled.2 (h.fronted l p ps (hs.cons hat) q hq (hs.filled.1 hfull))
  above := fun x c a hc ha => h.above x c a (hs.stored hc) (hs.stored ha)
  cert := fun x c hc => h.cert x c (hs.stored hc)

/-- **`PruneUpToLevel`** at the level of a stored block returns and leaves a tidy forest. -/
theorem Tidy.pruneUpToLevel (h : f.Tidy) {x : ℕ} (hb : f.getVertex x = some b) :
    ∃ r t, LevelledForest.pruneUpToLevel b.level f = .ok (some r) t ∧ t.Tidy ∧ f.Shrinks t := by
  have hlow := (h.levelled.listedAt h.indexed hb).2.2
  obtain ⟨ls, hls⟩ := h.sinking.committedLevels hb
  have hrun := pruneUpToLevel_of_ok hlow hls
  obtain ⟨-, -, -, -, hix⟩ := Prog.wp_ok (pruneUpToLevel_spec h.indexed.wf b.level) hrun
  obtain ⟨hheap, hvertices, hat⟩ :=
    pruneLevels_shrinks (f := f) ls (List.range' f.lowestLevel (b.level - f.lowestLevel))
  have hs : f.Shrinks { (pruneLevels ls (List.range' f.lowestLevel (b.level - f.lowestLevel)) f).2 with
      lowestLevel := b.level } := ⟨hheap, hvertices, hat⟩
  exact ⟨_, _, hrun, h.shrinks hs (h.levelled.pruneLevels ls _) (hix _ h.indexed), hs⟩

theorem Fits.shrinks (h : f.Fits b) (hs : f.Shrinks t) : t.Fits b where
  level := fun p c hp hc => h.level p c (hs.vertices b.id p hp) (hs.heap ▸ hc)
  first := fun p c ps hat hc => by
    rw [hs.filled]
    exact h.first p c ps (hs.cons hat) (hs.heap ▸ hc)
  noLoop := h.noLoop
  parent := fun a ha => h.parent a (hs.stored ha)
  children := fun x c hc => h.children x c (hs.stored hc)

/-! ### Adding a vertex -/

theorem Fronted.getOrCreate (h : f.Fronted) (hl : f.Levelled) (id level : ℕ) :
    (f.getOrCreateVertexContainer id level).2.Fronted := by
  unfold getOrCreateVertexContainer
  cases f.vertices.lookup id with
  | some p => exact h
  | none =>
    -- the containers that were listed are as before, the new one is a placeholder
    have hold : ∀ l q, q ∈ f.atLevel l →
        (f.heap ++ [(⟨id, level, [], none⟩ : VertexContainer)])[q]? = f.heap[q]? := by
      intro l q hq
      obtain ⟨c, hc, -⟩ := hl l q hq
      exact List.getElem?_append_left (List.getElem?_eq_some_iff.1 hc).1
    intro l p ps hat q hq hfull
    dsimp only [LevelledForest.atLevel, Filled] at hat hfull ⊢
    by_cases hll : l = level
    · subst hll
      rw [AList.lookup_insert, Option.getD_some, ← LevelledForest.atLevel] at hat
      cases hat₀ : f.atLevel l with
      | nil =>
        rw [hat₀, List.nil_append, List.cons.injEq] at hat
        rw [← hat.2] at hq
        cases hq
      | cons p₀ ps₀ =>
        rw [hat₀, List.cons_append, List.cons.injEq] at hat
        obtain ⟨rfl, rfl⟩ := hat
        rw [hold l p₀ (by rw [hat₀]; exact List.mem_cons_self)]
        rcases List.mem_append.1 hq with hq | hq
        · rw [hold l q (by rw [hat₀]; exact List.mem_cons_of_mem _ hq)] at hfull
          exact h l p₀ ps₀ hat₀ q hq hfull
        · obtain ⟨c, b, hc, hb⟩ := hfull
          rw [List.mem_singleton.1 hq, List.getElem?_concat_length] at hc
          cases hc
          cases hb
    · rw [AList.lookup_insert_ne hll] at hat
      have hat' : f.atLevel l = p :: ps := hat
      rw [hold l p (by rw [hat']; exact List.mem_cons_self)]
      rw [hold l q (by rw [hat']; exact List.mem_cons_of_mem _ hq)] at hfull
      exact h l p ps hat' q hq hfull

/-- Writing to other fields than the block. -/
theorem Fronted.modifyAt (h : f.Fronted) (p : ℕ) {g : VertexContainer → VertexContainer}
    (hg : ∀ c, (g c).vertex = c.vertex) : (f.modifyAt p g).Fronted := by
  have hfull : ∀ q, (f.modifyAt p g).Filled q ↔ f.Filled q := by
    intro q
    simp only [Filled, LevelledForest.modifyAt, List.getElem?_modify, Option.map_eq_map,
      Option.map_eq_some_iff]
    constructor
    · rintro ⟨_, b, ⟨c, hc, rfl⟩, hb⟩
      refine ⟨c, b, hc, ?_⟩
      split_ifs at hb
      · rwa [hg] at hb
      · exact hb
    · rintro ⟨c, b, hc, hb⟩
      refine ⟨_, b, ⟨c, hc, rfl⟩, ?_⟩
      split_ifs
      · rw [hg, hb]
      · exact hb
  intro l q qs hat r hr hr'
  exact (hfull q).2 (h l q qs hat r hr ((hfull r).1 hr'))

/-- A container is filled whose level does not start with another placeholder. -/
theorem Fronted.fill (h : f.Fronted) (hl : f.Levelled) {p : ℕ} {c : VertexContainer}
    (hc : f.heap[p]? = some c) (hfirst : ∀ q qs, f.atLevel c.level = q :: qs → q = p ∨ f.Filled q) :
    (f.modifyAt p fun c => { c with vertex := some b }).Fronted := by
  have hself : (f.modifyAt p fun c => { c with vertex := some b }).Filled p :=
    ⟨{ c with vertex := some b }, b, by simp [LevelledForest.modifyAt, hc], rfl⟩
  have hkeep : ∀ q, f.Filled q → (f.modifyAt p fun c => { c with vertex := some b }).Filled q := by
    intro q hq
    by_cases hqp : p = q
    · exact hqp ▸ hself
    · obtain ⟨d, b', hd, hb⟩ := hq
      exact ⟨d, b', by simp [LevelledForest.modifyAt, hqp, hd], hb⟩
  intro l q qs hat r hr hfull
  by_cases hrp : p = r
  · subst hrp
    obtain ⟨c', hc', hcl, -⟩ := hl l p ((show f.atLevel l = q :: qs from hat) ▸ List.mem_cons_of_mem _ hr)
    rw [hc] at hc'
    cases hc'
    rcases hfirst q qs (hcl ▸ hat) with rfl | hq
    · exact hself
    · exact hkeep q hq
  · obtain ⟨d, b', hd, hb⟩ := hfull
    simp only [LevelledForest.modifyAt, List.getElem?_modify, if_neg hrp] at hd
    exact hkeep q (h l q qs hat r hr ⟨d, b', by simpa using hd, hb⟩)

/-- A FULL container with a certificate is registered with its parent. -/
theorem Fronted.registerWithParent (h : f.Fronted) (hl : f.Levelled) {p : ℕ} {c : VertexContainer}
    (hc : f.heap[p]? = some c) (hcb : c.vertex = some b) (hqc : b.qc ≠ none) :
    Prog.wp (LevelledForest.registerWithParent p) (fun _ t => t.Fronted) (fun _ => False) f := by
  obtain ⟨qc, hqc⟩ := Option.ne_none_iff_exists'.1 hqc
  have hpar : c.vertex.bind Block.parent = some (b.prevID, uint64 qc.view) := by
    rw [hcb, Option.bind_some, Block.parent, hqc]
    rfl
  unfold LevelledForest.registerWithParent
  simp only [Prog.wp_bind, Prog.wp_get, hc, Prog.wp_ite, Prog.wp_pure, hpar, Prog.wp_set]
  refine ⟨fun _ => h, fun _ => ⟨fun _ => h, fun _ => ?_⟩⟩
  exact (h.getOrCreate hl _ _).modifyAt _ fun _ => rfl

/-- The container of a block that fits is the first one of its level, or comes after a FULL one. -/
theorem Fits.container (hfit : f.Fits b) (hl : f.Levelled) {c : VertexContainer}
    (hc : (f.getOrCreateVertexContainer b.id b.level).2.heap[
      (f.getOrCreateVertexContainer b.id b.level).1]? = some c) :
    c.level = b.level ∧ ∀ q qs, (f.getOrCreateVertexContainer b.id b.level).2.atLevel c.level = q :: qs →
      q = (f.getOrCreateVertexContainer b.id b.level).1 ∨
        (f.getOrCreateVertexContainer b.id b.level).2.Filled q := by
  -- in the old forest the first container is the block's own or FULL
  have hold : ∀ q qs, f.atLevel b.level = q :: qs → f.vertices.lookup b.id = some q ∨ f.Filled q := by
    intro q qs hat
    obtain ⟨d, hd, -, hix, -⟩ := hl b.level q (by rw [hat]; exact List.mem_cons_self)
    rcases hfit.first q d qs hat hd with hid | hfull
    · exact Or.inl (hid ▸ hix)
    · exact Or.inr hfull
  unfold getOrCreateVertexContainer at hc ⊢
  cases hlk : f.vertices.lookup b.id with
  | some p =>
    simp only [hlk] at hc
    have hlev := hfit.level p c hlk hc
    refine ⟨hlev, fun q qs hat => ?_⟩
    rcases hold q qs (hlev ▸ hat) with hq | hfull
    · rw [hlk] at hq
      exact Or.inl (Option.some.inj hq).symm
    · exact Or.inr hfull
  | none =>
    simp only [hlk] at hc
    rw [List.getElem?_concat_length] at hc
    cases hc
    refine ⟨rfl, fun q qs hat => ?_⟩
    dsimp only [LevelledForest.atLevel, Filled] at hat ⊢
    rw [AList.lookup_insert, Option.getD_some, ← LevelledForest.atLevel] at hat
    cases hat₀ : f.atLevel b.level with
    | nil =>
      rw [hat₀, List.nil_append, List.cons.injEq] at hat
      exact Or.inl hat.1.symm
    | cons q₀ qs₀ =>
      rw [hat₀, List.cons_append, List.cons.injEq] at hat
      obtain ⟨rfl, -⟩ := hat
      rcases hold q₀ qs₀ hat₀ with hq | ⟨d, b', hd, hb⟩
      · rw [hlk] at hq
        cases hq
      · refine Or.inr ⟨d, b', ?_, hb⟩
        rw [List.getElem?_append_left (List.getElem?_eq_some_iff.1 hd).1, hd]

theorem Fits.addVertex_fronted (hfit : f.Fits b) (h : f.Tidy) (hqc : b.qc ≠ none) :
    Prog.wp (LevelledForest.addVertex b) (fun _ t => t.Fronted) (fun _ => False) f := by
  unfold LevelledForest.addVertex
  simp only [Prog.wp_bind, Prog.wp_get, Prog.wp_ite, Prog.wp_pure]
  refine ⟨fun _ => h.fronted, fun hlow => ?_⟩
  have h₁ := h.fronted.getOrCreate h.levelled b.id b.level
  have hl₁ := h.levelled.getOrCreate b.id b.level
  have hwf := wf_getOrCreate h.indexed.wf b.id b.level
  have hlk := lookup_getOrCreate (f := f) b.id b.level
  have hcont := fun c => hfit.container h.levelled (c := c)
  generalize f.getOrCreateVertexContainer b.id b.level = pf at h₁ hl₁ hwf hlk hcont ⊢
  obtain ⟨p, f₁⟩ := pf
  dsimp only at h₁ hl₁ hwf hlk hcont ⊢
  obtain ⟨c, hc, hid⟩ := hwf b.id p hlk
  obtain ⟨hlev, hfirst⟩ := hcont c hc
  simp only [Prog.wp_set, hc, Prog.wp_ite, Prog.wp_pure]
  refine ⟨fun _ => h₁, fun _ => ?_⟩
  have hl₂ : (f₁.modifyAt p fun c => { c with vertex := some b }).Levelled := by
    refine hl₁.modifyAt p fun c' hc' => ⟨rfl, rfl, Or.inr ⟨b, rfl, ?_⟩⟩
    rw [hc] at hc'
    cases hc'
    exact ⟨hid.symm, hlev.symm⟩
  refine Fronted.registerWithParent (c := { c with vertex := some b }) (h₁.fill hl₁ hc hfirst) hl₂ ?_
    rfl hqc
  rw [LevelledForest.modifyAt, List.getElem?_modify, hc]
  simp

/-- **Adding a block that fits** returns and keeps the forest tidy. -/
theorem Fits.addVertex (hfit : f.Fits b) (h : f.Tidy) (hqc : b.qc ≠ none) :
    Prog.wp (LevelledForest.addVertex b) (fun _ t => t.Tidy) (fun _ => False) f := by
  -- the container of the block, if there is one, has its level
  have hix : f.Indexed fun id l => id = b.id → l = b.level := by
    intro id p hp
    obtain ⟨c, hc, hid, -, hrest⟩ := h.indexed id p hp
    exact ⟨c, hc, hid, fun he => hfit.level p c (he ▸ hp) hc, hrest⟩
  refine Prog.wp_mono (Prog.wp_and (hfit.addVertex_fronted h hqc) (Prog.wp_and
    (addVertex_spec h.indexed.wf b) (addVertex_levelled h.levelled hix (fun _ => rfl)
      fun l hl => hl rfl))) ?_ fun t ht => ht.1
  rintro _ t ⟨hfront, hadd, hlev⟩
  have hixt : t.Indexed fun _ _ => True := hadd.indexed _ trivial (fun _ _ _ => trivial) h.indexed
  have hstored : ∀ x c, t.getVertex x = some c → f.getVertex x = some c ∨ x = b.id ∧ c = b := by
    intro x c hx
    rw [hadd.stored] at hx
    split_ifs at hx with hnew
    · exact Or.inr ⟨hnew.1, (Option.some.inj hx).symm⟩
    · exact Or.inl hx
  refine ⟨hlev, hixt, hfront, ?_, ?_⟩
  · -- a block and its parent: both old, or one of them is the new one
    intro x c a hc ha
    rcases hstored x c hc with hco | ⟨rfl, rfl⟩ <;> rcases hstored _ a ha with hao | ⟨hid, rfl⟩
    · exact h.above x c a hco hao
    · exact hfit.children x c hco hid
    · exact hfit.parent a hao
    · exact absurd hid hfit.noLoop
  · intro x c hc
    rcases hstored x c hc with hco | ⟨-, rfl⟩
    · exact h.cert x c hco
    · exact hqc

end LevelledForest

namespace BlockChain

open LevelledForest

variable {bc : BlockChain}

/-- The loop of `CommitBlock` from a stored block ends, where parents are on lower levels. -/
theorem commitLoop_returns (bc : BlockChain)
    (habove : ∀ x c a, bc.forrest.getVertex x = some c → bc.forrest.ParentOf c a → a.level < c.level) (view : ℤ)
    {b : Block} {x : ℕ} (hb : bc.forrest.getVertex x = some b) :
    ∃ l t, commitLoop view (bc.forrest.vertices.entries.length + 1) b [] bc = .ok l t := by
  rw [commitLoop_returns_iff]
  refine Walk.walks_of_safe (fun c hc => Walk.safe_of_lt Block.level (fun e he => by cases he) ?_)
    (fun c p hc _ => ?_) (Nat.lt_succ_of_le (length_storedBlocks bc.forrest))
  · intro d p hd hp
    obtain ⟨y, hy⟩ := stored_of_ancestorStep hb (hc.trans hd)
    exact habove y d p hy (ancestorStep_parent hp).2
  · obtain ⟨y, hy⟩ := stored_of_ancestorStep hb hc
    exact mem_storedBlocks hy

/-- **A commit** returns and leaves a tidy forest. -/
theorem commitBlock_tidy (h : bc.forrest.Tidy) (id : ℕ) (view : ℤ) :
    Prog.wp (commitBlock id view) (fun _ t => t.forrest.Tidy ∧ bc.forrest.Shrinks t.forrest)
      (fun _ => False) bc := by
  unfold commitBlock
  simp only [Prog.wp_bind, Prog.wp_get]
  cases hv : bc.forrest.getVertex id with
  | none => exact ⟨h, .refl _⟩
  | some b =>
    simp only [Prog.wp_bind, Prog.wp_set]
    have hloop : Prog.wp (commitLoop view (bc.forrest.vertices.entries.length + 1) b [])
        (fun _ t => t.forrest = bc.forrest) (fun _ => False) { bc with highestComitted := b.view } := by
      obtain ⟨l, t, hrun⟩ := commitLoop_returns { bc with highestComitted := b.view } h.above view hv
      rw [Prog.wp, hrun]
      exact (Prog.wp_ok (commitLoop_spec view _ b []) hrun).1.forrest
    refine Prog.wp_mono hloop ?_ fun _ hf => hf
    intro l t ht
    obtain ⟨r, f, hrun, htidy, hshrinks⟩ := h.pruneUpToLevel hv
    have hwp : Prog.wp (LevelledForest.pruneUpToLevel b.level) (fun r' f' => r' = some r ∧ f' = f)
        (fun _ => False) bc.forrest := by
      rw [Prog.wp, hrun]
      exact ⟨rfl, rfl⟩
    simp only [Prog.wp_zoom]
    rw [ht]
    refine Prog.wp_mono hwp ?_ fun _ hf => hf
    rintro r' f' ⟨rfl, rfl⟩
    exact ⟨htidy, hshrinks⟩

end BlockChain

end Bamboo
