import Bamboo.Representation

/-!
# Levels that tell the truth

`AddVertex` requires that the vertex passes `VerifyVertex`, which compares it with the stored vertices.  It
does not look at placeholders, so a vertex may be filed at a level that a child declared for it.

* `Verified`: every vertex passes `VerifyVertex` when it is added;
* `Truthful`: blocks are filed at their level, and parents have the level that their children declare;
* `Agrees`: what the vertices stored already say about a vertex to be added is true;
* `truthful_iff_agrees`, and `child_misplaces_parent`, where a child's declaration decides the level.
-/

namespace Bamboo

namespace LevelledForest

variable {f t : LevelledForest} {b : Block} {bs : List Block}

/-- Each vertex is as `P` demands in the forest that it is added to. -/
def AtEach (P : LevelledForest → Block → Prop) : List Block → LevelledForest → Prop
  | [], _ => True
  | b :: bs, f => P f b ∧ ∀ t, addVertex b f = .ok () t → AtEach P bs t

/-- Each vertex passes `VerifyVertex` when its turn comes. -/
def Verified : List Block → LevelledForest → Prop := AtEach fun f b => f.verifyVertex b = .ok none

/-- Blocks are filed at their level, and stored parents have a lower level, the one declared. -/
structure Truthful (f : LevelledForest) : Prop where
  filed : ∀ x b, f.getVertex x = some b → f.FiledAt x b.level
  parent : ∀ x b p, f.getVertex x = some b → f.ParentOf b p →
    p.level < b.level ∧ b.parent = some (b.prevID, p.level)

/-- A block that is new is not its own parent, has no stored parent if it is at level 0, and the stored
blocks that name it as their parent are above its level and declare it. -/
def Agrees (f : LevelledForest) (b : Block) : Prop :=
  f.getVertex b.id = none → b.prevID ≠ b.id ∧ (b.level = 0 → f.getVertex b.prevID = none) ∧
    ∀ x w, f.getVertex x = some w → w.prevID = b.id → b.level < w.level ∧ w.parent = some (b.id, b.level)

/-- Each vertex agrees with the forest when its turn comes. -/
def Agreeing : List Block → LevelledForest → Prop := AtEach Agrees

/-- `AtEach` as a test. -/
def atEach (p : LevelledForest → Block → Bool) : List Block → LevelledForest → Bool
  | [], _ => true
  | b :: bs, f => p f b &&
    match addVertex b f with
    | .ok _ t => atEach p bs t
    | .error _ _ => true

theorem atEach_of_test {P : LevelledForest → Block → Prop} {p : LevelledForest → Block → Bool}
    (hp : ∀ f b, p f b = true → P f b) (h : atEach p bs f = true) : AtEach P bs f := by
  induction bs generalizing f with
  | nil => trivial
  | cons b bs ih =>
    unfold atEach at h
    rw [Bool.and_eq_true] at h
    refine ⟨hp f b h.1, fun t ht => ih ?_⟩
    rw [ht] at h
    exact h.2

/-- `Agrees` as a test. -/
def agrees (f : LevelledForest) (b : Block) : Bool :=
  (f.getVertex b.id).isSome || (decide (b.prevID ≠ b.id) &&
    decide (b.level = 0 → f.getVertex b.prevID = none) &&
    f.vertices.keys.all fun x => (f.getVertex x).all fun w =>
      decide (w.prevID = b.id → b.level < w.level ∧ w.parent = some (b.id, b.level)))

theorem agrees_of_test (f : LevelledForest) (b : Block) (h : f.agrees b = true) : f.Agrees b := by
  intro hn
  simp only [agrees, hn, Option.isSome_none, Bool.false_or, Bool.and_eq_true, decide_eq_true_eq,
    List.all_eq_true, Option.all_eq_true] at h
  obtain ⟨⟨hself, h0⟩, hchild⟩ := h
  refine ⟨hself, h0, fun x w hw => hchild x ?_ w hw⟩
  simp only [getVertex, Option.bind_eq_bind, Option.bind_eq_some_iff] at hw
  obtain ⟨p, hp, -⟩ := hw
  exact GoMap.mem_keys hp

/-! ### One addition -/

/-- Nothing has been pruned, and a placeholder is at the level that a stored block declares for it. -/
structure Unpruned (f : LevelledForest) : Prop extends Sound f where
  lowest : f.lowestLevel = 0
  declared : ∀ x l, f.FiledAt x l → f.getVertex x = none → ∃ y w, f.getVertex y = some w ∧
    w.parent = some (x, l)

theorem unpruned_new : new.Unpruned where
  toSound := sound_new
  lowest := rfl
  declared := fun x l ⟨p, c, hp, _⟩ => by simp [new] at hp

theorem prevID_of_parent {w : Block} {x l : ℕ} (h : w.parent = some (x, l)) : w.prevID = x := by
  obtain ⟨qc, -, hqc⟩ := Option.map_eq_some_iff.1 h
  exact congrArg Prod.fst hqc

/-- A vertex whose id is stored is not added. -/
theorem addVertex_stored (hf : f.WF) (hs : f.getVertex b.id ≠ none)
    (hr : LevelledForest.addVertex b f = .ok () t) : t = f := by
  cases addVertex_cases hf hr with
  | ignored => rfl
  | root _ hn => exact absurd hn hs
  | child _ hn => exact absurd hn hs

/-- Where the forest keeps containers after an addition. -/
theorem Sound.filedAt_addVertex (h : f.Sound) (hr : LevelledForest.addVertex b f = .ok () t) {x l : ℕ}
    (hx : t.FiledAt x l) : f.FiledAt x l ∨ x = b.id ∨ b.parent = some (x, l) := by
  obtain ⟨p, c, hp, hc, rfl⟩ := hx
  have hix : f.Indexed fun x l => f.FiledAt x l ∨ x = b.id ∨ b.parent = some (x, l) := by
    intro x p hp
    obtain ⟨c, hc, hid, -, hrest⟩ := h.indexed x p hp
    exact ⟨c, hc, hid, Or.inl ⟨p, c, hp, hc, rfl⟩, hrest⟩
  obtain ⟨c', hc', -, hcase, -⟩ := (Prog.wp_ok (addVertex_spec h.indexed.wf b) hr).indexed _
    (Or.inr (Or.inl rfl)) (fun q l hq => Or.inr (Or.inr hq)) hix x p hp
  rw [hc] at hc'
  cases hc'
  exact hcase

/-- An addition of a new block stores it and keeps what is stored. -/
theorem stored_addVertex (hf : f.WF) (hlow : f.lowestLevel ≤ b.level) (hn : f.getVertex b.id = none)
    (hr : LevelledForest.addVertex b f = .ok () t) {x : ℕ} {w : Block} :
    t.getVertex x = some w ↔ f.getVertex x = some w ∨ x = b.id ∧ w = b := by
  rw [(Prog.wp_ok (addVertex_spec hf b) hr).stored]
  by_cases hx : x = b.id
  · subst hx
    rw [if_pos ⟨rfl, hlow, hn⟩, hn]
    simp [eq_comm]
  · rw [if_neg fun hc => hx hc.1]
    simp [hx]

theorem Unpruned.stored_addVertex (h : f.Unpruned) (hn : f.getVertex b.id = none)
    (hr : LevelledForest.addVertex b f = .ok () t) {x : ℕ} {w : Block} :
    t.getVertex x = some w ↔ f.getVertex x = some w ∨ x = b.id ∧ w = b :=
  LevelledForest.stored_addVertex h.indexed.wf (h.lowest ▸ Nat.zero_le _) hn hr

theorem Unpruned.addVertex (h : f.Unpruned) (hr : LevelledForest.addVertex b f = .ok () t) : t.Unpruned := by
  by_cases hn : f.getVertex b.id = none
  · have hst : ∀ x w, t.getVertex x = some w ↔ f.getVertex x = some w ∨ x = b.id ∧ w = b :=
      fun x w => h.stored_addVertex hn hr
    refine ⟨(Prog.wp_ok (h.toSound.addVertex b) hr).1,
      (Prog.wp_ok (addVertex_spec h.indexed.wf b) hr).lowest.trans h.lowest, fun x l hx hempty => ?_⟩
    rcases h.toSound.filedAt_addVertex hr hx with hold | rfl | hpar
    · -- the placeholder was there, and so was the block that declares it
      have hx₀ : f.getVertex x = none := by
        by_contra hne
        obtain ⟨w, hw⟩ := Option.ne_none_iff_exists'.1 hne
        rw [(hst x w).2 (Or.inl hw)] at hempty
        cases hempty
      obtain ⟨y, w, hw, hpar⟩ := h.declared x l hold hx₀
      exact ⟨y, w, (hst y w).2 (Or.inl hw), hpar⟩
    · rw [(hst b.id b).2 (Or.inr ⟨rfl, rfl⟩)] at hempty
      cases hempty
    · exact ⟨b.id, b, (hst b.id b).2 (Or.inr ⟨rfl, rfl⟩), hpar⟩
  · rw [addVertex_stored h.indexed.wf hn hr]
    exact h

/-- What `VerifyVertex` has checked of a new vertex above level 0. -/
theorem Unpruned.verifyVertex (h : f.Unpruned) (hn : f.getVertex b.id = none) (h0 : b.level ≠ 0)
    (hv : f.verifyVertex b = .ok none) :
    ∃ l, b.parent = some (b.prevID, l) ∧ l < b.level ∧ ∀ p, f.ParentOf b p → p.level = l := by
  unfold LevelledForest.verifyVertex isEquivalentToStoredVertex at hv
  rw [h.lowest, if_neg (Nat.not_lt_zero _), hn] at hv
  change (if b.level = 0 then pure none else f.verifyParent b) = Except.ok none at hv
  rw [if_neg h0] at hv
  unfold verifyParent at hv
  cases hpar : b.parent with
  | none =>
    rw [hpar] at hv
    cases hv
  | some pr =>
    obtain ⟨q, l⟩ := pr
    obtain rfl := prevID_of_parent hpar
    rw [hpar] at hv
    dsimp only at hv
    by_cases hle : b.level ≤ l
    · rw [if_pos hle] at hv
      cases hv
    rw [if_neg hle] at hv
    refine ⟨l, rfl, Nat.not_le.1 hle, fun p hp => ?_⟩
    rw [show f.getVertex b.prevID = some p from hp] at hv
    dsimp only at hv
    by_contra hne
    rw [if_pos hne] at hv
    cases hv

/-- **One addition**: the forest stays truthful exactly if the vertex agrees with it. -/
theorem Unpruned.truthful_addVertex (h : f.Unpruned) (hv : f.verifyVertex b = .ok none)
    (hr : LevelledForest.addVertex b f = .ok () t) : t.Truthful ↔ f.Truthful ∧ f.Agrees b := by
  by_cases hn : f.getVertex b.id = none
  swap
  · rw [addVertex_stored h.indexed.wf hn hr]
    exact ⟨fun ht => ⟨ht, fun hn' => absurd hn' hn⟩, And.left⟩
  have hst : ∀ x w, t.getVertex x = some w ↔ f.getVertex x = some w ∨ x = b.id ∧ w = b :=
    fun x w => h.stored_addVertex hn hr
  obtain ⟨hsound, hkeep, hplace⟩ := Prog.wp_ok (h.toSound.addVertex b) hr
  have hb : t.getVertex b.id = some b := (hst _ _).2 (Or.inr ⟨rfl, rfl⟩)
  constructor
  · intro ht
    refine ⟨⟨fun x w hw => ?_, fun x w p hw hp => ?_⟩, fun _ => ⟨fun hself => ?_, fun h0 => ?_, ?_⟩⟩
    · obtain ⟨l, hl, -⟩ := h.toSound.filedAt hw
      rw [← (hkeep x l hl).unique (ht.filed x w ((hst x w).2 (Or.inl hw)))]
      exact hl
    · exact ht.parent x w p ((hst x w).2 (Or.inl hw)) ((hst _ p).2 (Or.inl hp))
    · refine Nat.lt_irrefl b.level (ht.parent b.id b b hb ?_).1
      rw [ParentOf, hself]
      exact hb
    · by_contra hne
      obtain ⟨p, hp⟩ := Option.ne_none_iff_exists'.1 hne
      have := (ht.parent b.id b p hb ((hst _ p).2 (Or.inl hp))).1
      omega
    · intro x w hw hwb
      have hpar : t.ParentOf w b := by
        rw [ParentOf, hwb]
        exact hb
      have hres := ht.parent x w b ((hst x w).2 (Or.inl hw)) hpar
      rw [hwb] at hres
      exact hres
  · rintro ⟨ht, hagree⟩
    obtain ⟨hself, h0, hchild⟩ := hagree hn
    refine ⟨fun x w hw => ?_, fun x w p hw hp => ?_⟩
    · rcases (hst x w).1 hw with hw | ⟨rfl, rfl⟩
      · exact hkeep x _ (ht.filed x w hw)
      · cases hlk : f.vertices.lookup w.id with
        | none => exact hplace (h.lowest ▸ Nat.zero_le _) hlk
        | some p =>
          -- the container that waits for the block was declared by a child
          obtain ⟨c, hc, -⟩ := h.indexed w.id p hlk
          have hfiled : f.FiledAt w.id c.level := ⟨p, c, hlk, hc, rfl⟩
          obtain ⟨y, v, hv', hpar⟩ := h.declared w.id _ hfiled hn
          have := (hchild y v hv' (prevID_of_parent hpar)).2
          rw [hpar, Option.some.injEq, Prod.mk.injEq] at this
          rw [← this.2]
          exact hkeep _ _ hfiled
    · rcases (hst x w).1 hw with hw | ⟨rfl, rfl⟩ <;> rcases (hst _ p).1 hp with hp | ⟨hid, rfl⟩
      · exact ht.parent x w p hw hp
      · have hres := hchild x w hw hid
        rw [← hid] at hres
        exact hres
      · have hpos : w.level ≠ 0 := fun hz => by
          rw [h0 hz] at hp
          cases hp
        obtain ⟨l, hpar, hlt, hlev⟩ := h.verifyVertex hn hpos hv
        rw [hlev p hp]
        exact ⟨hlt, hpar⟩
      · exact absurd hid hself

/-! ### Sequences of additions -/

theorem Unpruned.truthful_iff (h : f.Unpruned) (hv : Verified bs f)
    (hr : forestCalls (bs.map .addVertex) f = .ok () t) : t.Truthful ↔ f.Truthful ∧ Agreeing bs f := by
  induction bs generalizing f with
  | nil =>
    cases hr
    exact ⟨fun ht => ⟨ht, trivial⟩, And.left⟩
  | cons b bs ih =>
    obtain ⟨r, s, hc, hrest⟩ := Prog.bind_eq_ok hr
    obtain ⟨_, s', hb, hc⟩ := Prog.bind_eq_ok hc
    cases hc
    obtain ⟨hvb, hvs⟩ := hv
    rw [ih (h.addVertex hb) (hvs s hb) hrest, h.truthful_addVertex hvb hb, and_assoc]
    refine and_congr_right fun _ => and_congr_right fun _ => ⟨fun hs s' hs' => ?_, fun hs => hs s hb⟩
    rw [hb] at hs'
    cases hs'
    exact hs

/-- **Levels stay truthful** exactly if every vertex, when it is added, agrees with what the vertices stored
before say about it. -/
theorem truthful_iff_agrees (bs : List Block) (t : LevelledForest) (hv : Verified bs new)
    (hrun : forestCalls (bs.map .addVertex) new = .ok () t) : t.Truthful ↔ Agreeing bs new := by
  rw [unpruned_new.truthful_iff hv hrun]
  refine ⟨And.right, fun ha => ⟨⟨fun x b hb => ?_, fun x b p hb => ?_⟩, ha⟩⟩
  · simp [new, getVertex] at hb
  · simp [new, getVertex] at hb

/-- A child comes before its parent and declares the parent's level. -/
theorem truthful_iff_agrees_childFirst :
    ∃ t, Verified [bareBlock 2 2 1 1, bareBlock 1 1 0 0] new ∧
      forestCalls ([bareBlock 2 2 1 1, bareBlock 1 1 0 0].map .addVertex) new = .ok () t ∧ t.Truthful := by
  have hrun : Prog.passes (forestCalls ([bareBlock 2 2 1 1, bareBlock 1 1 0 0].map .addVertex))
      (fun _ _ => true) new = true := by decide_cbv
  have hv : Verified [bareBlock 2 2 1 1, bareBlock 1 1 0 0] new :=
    atEach_of_test (p := fun f b => decide (f.verifyVertex b = .ok none)) (fun _ _ => of_decide_eq_true)
      (by decide_cbv)
  obtain ⟨_, t, ht, -⟩ := Prog.exists_ok_of_passes hrun
  exact ⟨t, hv, ht, (truthful_iff_agrees _ t hv ht).2 (atEach_of_test agrees_of_test (by decide_cbv))⟩

/-- **A child decides where its parent is filed**: it declares level 5 for its parent, which then comes with
view 2; `VerifyVertex` lets both pass. -/
theorem child_misplaces_parent :
    ∃ t, Verified [bareBlock 9 6 5 5, bareBlock 5 2 0 1] new ∧
      forestCalls ([bareBlock 9 6 5 5, bareBlock 5 2 0 1].map .addVertex) new = .ok () t ∧ ¬ t.Truthful := by
  have hrun : Prog.passes (forestCalls ([bareBlock 9 6 5 5, bareBlock 5 2 0 1].map .addVertex))
      (fun _ t => decide (t.getVertex 5 = some (bareBlock 5 2 0 1) ∧ t.FiledAt 5 5)) new = true := by
    decide_cbv
  have hv : Verified [bareBlock 9 6 5 5, bareBlock 5 2 0 1] new :=
    atEach_of_test (p := fun f b => decide (f.verifyVertex b = .ok none)) (fun _ _ => of_decide_eq_true)
      (by decide_cbv)
  obtain ⟨_, t, ht, htest⟩ := Prog.exists_ok_of_passes hrun
  obtain ⟨hst, hfiled⟩ := of_decide_eq_true htest
  refine ⟨t, hv, ht, fun htrue => ?_⟩
  have hlevel := hfiled.unique (htrue.filed 5 _ hst)
  exact absurd hlevel (by decide)

end LevelledForest

end Bamboo
