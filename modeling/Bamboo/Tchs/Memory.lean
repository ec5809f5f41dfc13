import Bamboo.Tchs.Certificates

/-!
# Stamped certificates in memory

`forkChoice` stamps the certificate of `highQC`, and the block it is in may still have to be processed.
What a replica of two-chain HotStuff then knows about a block in its memory:

* `Late`: the block came before its parent, so that the parent, when it is inserted, is of a view not
  below the one before the block's;
* `Kept`: a block is in memory as it was sent, or its certificate was stamped with a view that is over;
* `Memory`: the invariant of one replica in its `Env`ironment;
* `memory_of_reachable`: it holds at every replica of a network.
-/

namespace Bamboo

namespace Tchs

/-- The replica leads one of the views up to `n`. -/
def Led (nd : Node) (n : ℤ) : Prop := ∃ e, 1 ≤ e ∧ e ≤ n ∧ nd.elec.isLeader nd.id e = true

/-- The block's parent is late: whatever is stored as the parent was inserted after the replica had
entered the view before the block's. -/
structure Late (nd : Node) (s : Tchs) (b : Block) : Prop where
  entered : b.view - 1 ≤ s.pm.curView
  parent : ∀ a, s.bc.forrest.getVertex b.prevID = some a → b.view - 1 ≤ a.view
  signer : ∀ q, b.qc = some q → nd.id ∈ q.signers → 2 ≤ s.pm.curView

/-- The block `b` at the address `p` is a copy of `b₀`, which was sent with the certificate `q₀`. -/
structure Kept (P : Block → Prop) (nd : Node) (s : Tchs) (p : ℕ) (b b₀ : Block) (q₀ : QC) : Prop where
  proposed : P b₀
  copy : Copy b b₀
  qc : b₀.qc = some q₀
  stamped : b = b₀ ∨ ∀ q, b.qc = some q → q.view < s.pm.curView ∧
    (q₀.view ≤ q.view ∨ Late nd s b ∧ (b.view - 1 ≤ q.view ∨ Led nd (b.view - 1)))
  high : p = s.highQC → b.view ≤ s.pm.curView + 1 ∧ (q₀.view < s.pm.curView ∨ Late nd s b)

/-- What is known of the memory of a replica; `P` are the blocks of the network. -/
structure Memory (P : Block → Prop) (nd : Node) (s : Tchs) : Prop where
  window : ∀ c lock parent, .accepted c lock parent ∈ s.trace → c.view ≤ s.pm.curView + 1
  /-- before view 2 nothing is pruned -/
  early : s.pm.curView ≤ 1 → s.bc.forrest.lowestLevel = 0 ∧
    ∀ c lock parent, .accepted c lock parent ∈ s.trace → s.bc.forrest.getVertex c.id ≠ none
  block : ∀ (p : ℕ) (b : Block), s.heap[p]? = some (.block b) → ∃ b₀ q₀, Kept P nd s p b b₀ q₀
  /-- a certificate the replica has built is stamped with a view not below its own -/
  certificate : ∀ (p : ℕ) (q : QC), s.heap[p]? = some (.certificate q) →
    q.blockID = zeroID ∨ ∃ q₀, .built q₀ ∈ s.trace ∧ q.blockID = q₀.blockID ∧ q₀.view ≤ q.view ∧
      (p = s.highQC → q₀.view < s.pm.curView)

/-- What a replica may rely on when all others are honest. -/
structure Env (P : Block → Prop) (nd : Node) (In : Msg → Prop) (s : Tchs) : Prop where
  unique : CollisionFree P
  heard : ∀ b, Heard In s (.block b) → P b
  foreign : ∀ b, In (.block b) → b.proposer ≠ nd.id
  proposal : ∀ b, P b → b.prevID ≠ b.id ∧ ∃ q, b.qc = some q ∧ b.prevID = q.blockID ∧ b.view - 1 ≤ q.view
  passes : ∀ p q, s.Holds p q → Passes nd q
  signed : ∀ p q, s.Holds p q → nd.id ∈ q.signers →
    ∃ c lock parent, .accepted c lock parent ∈ s.trace ∧ c.id = q.blockID
  views : ∀ v ∈ s.pm.newViewChan, 1 ≤ v ∧ v ≤ s.pm.curView

variable {P P' : Block → Prop} {nd : Node} {In : Msg → Prop} {s t : Tchs} {p : ℕ} {b b₀ : Block}
  {q q₀ : QC}

theorem Late.act (h : Late nd s b) (ha : Act nd In s t) : Late nd t b := by
  have hcur := ha.curView_le
  refine ⟨by have := h.entered; omega, fun a hs => ?_, fun q hq hi => ?_⟩
  · rcases ha.stored hs with hs | ⟨-, ⟨p, hadm⟩, -⟩
    · exact h.parent a hs
    · have := h.entered
      have := hadm.lower
      omega
  · have := h.signer q hq hi
    omega

theorem Late.stamp (h : Late nd s b) (v : ℤ) : Late nd s (b.stamp v) := by
  refine ⟨h.entered, h.parent, fun q hq hi => ?_⟩
  obtain ⟨q', hq', rfl⟩ := Option.map_eq_some_iff.1 hq
  exact h.signer q' hq' hi

/-! ### Insertions in the first views -/

theorem Memory.window_act (h : Memory P nd s) (ha : Act nd In s t) {c : Block} {lock : ℤ}
    {parent : Option Block} (hc : .accepted c lock parent ∈ t.trace) : c.view ≤ t.pm.curView + 1 := by
  have hcur := ha.curView_le
  rcases ha.mem_trace hc with hc | ⟨⟨p, hadm⟩, -⟩
  · have := h.window c lock parent hc
    omega
  · have := hadm.upper
    omega

/-- A block stays stored, except at a commit, which there is none before view 2. -/
theorem Memory.early_act (h : Memory P nd s) (ha : Act nd In s t) (hcur : t.pm.curView ≤ 1) :
    t.bc.forrest.lowestLevel = 0 ∧
      ∀ c lock parent, .accepted c lock parent ∈ t.trace → t.bc.forrest.getVertex c.id ≠ none := by
  have hcur' := ha.curView_le
  obtain ⟨hlow, hold⟩ := h.early (by omega)
  cases ha with
  | @accept p b f hb hf =>
    refine ⟨hf.lowest.trans hlow, fun c lock parent hc => ?_⟩
    show f.getVertex c.id ≠ none
    rw [hf.stored]
    split_ifs with hcond
    · exact Option.some_ne_none b
    · intro hnone
      rcases List.mem_append.1 hc with hc | hc
      · exact hold c lock parent hc hnone
      · cases List.mem_singleton.1 hc
        exact hcond ⟨rfl, by rw [hlow]; exact Nat.zero_le _, hnone⟩
  | @commit b q g batch forked bc hb hq h2 hv hg hc =>
    exfalso
    obtain ⟨lock, parent, hm⟩ := accepted_of_pending hb
    have hwin := h.window b lock parent hm
    dsimp only at hcur
    omega
  | commitFailed hd =>
    dsimp only
    rw [hd.forrest]
    exact ⟨hlow, hold⟩
  | @offer p =>
    obtain ⟨h, heq, -⟩ := updateHighQC_cases s p
    rw [heq]
    exact ⟨hlow, hold⟩
  | @certify p q u hp hv hpass ht =>
    obtain ⟨v, h, heq, -⟩ := certify_cases (p := p) ht
    rw [heq]
    exact ⟨hlow, hold⟩
  | vote => exact ⟨hlow, fun c lock parent hc => hold c lock parent (by simpa using hc)⟩
  | build => exact ⟨hlow, fun c lock parent hc => hold c lock parent (by simpa using hc)⟩
  | _ => exact ⟨hlow, hold⟩

/-! ### Blocks and certificates in memory -/

namespace Kept

/-- The certificate in memory differs from the one that was sent in its view only. -/
theorem cert (h : Kept P nd s p b b₀ q₀) (hq : b.qc = some q) :
    q.blockID = q₀.blockID ∧ q.signers = q₀.signers := by
  obtain ⟨v, hv⟩ := h.copy.qc h.qc
  rw [hq] at hv
  cases hv
  exact ⟨rfl, rfl⟩

theorem link (h : Kept P nd s p b b₀ q₀) (he : Env P nd In s) :
    b.prevID = q₀.blockID ∧ b.view - 1 ≤ q₀.view := by
  obtain ⟨-, q', hq', hprev, hview⟩ := he.proposal b₀ h.proposed
  rw [h.qc] at hq'
  cases hq'
  exact ⟨h.copy.prevID.trans hprev, h.copy.view ▸ hview⟩

/-- A certificate was not stamped with a lower view, except when the parent is late. -/
theorem lowered (h : Kept P nd s p b b₀ q₀) (hq : b.qc = some q) :
    q₀.view ≤ q.view ∨ Late nd s b ∧ (b.view - 1 ≤ q.view ∨ Led nd (b.view - 1)) := by
  rcases h.stamped with rfl | hs
  · have heq : q₀ = q := Option.some.inj (h.qc.symm.trans hq)
    exact Or.inl (Int.le_of_eq (by rw [heq]))
  · exact (hs q hq).2

/-- A certificate of a view that is not over is as it was sent. -/
theorem current (h : Kept P nd s p b b₀ q₀) (hq : b.qc = some q) (hv : s.pm.curView ≤ q.view) :
    q₀ = q := by
  rcases h.stamped with rfl | hs
  · exact Option.some.inj (h.qc.symm.trans hq)
  · have := (hs q hq).1
    omega

theorem act_stamped (h : Kept P nd s p b b₀ q₀) (ha : Act nd In s t) :
    b = b₀ ∨ ∀ q, b.qc = some q → q.view < t.pm.curView ∧
      (q₀.view ≤ q.view ∨ Late nd t b ∧ (b.view - 1 ≤ q.view ∨ Led nd (b.view - 1))) := by
  refine h.stamped.imp_right fun hs q hq => ?_
  obtain ⟨hlt, hor⟩ := hs q hq
  have hcur := ha.curView_le
  exact ⟨by omega, hor.imp_right fun hl => ⟨hl.1.act ha, hl.2⟩⟩

/-- `forkChoice` stamps the certificate of the view before the current one. -/
theorem stamp (h : Kept P nd s s.highQC b b₀ q₀) (he : Env P nd In s) {v : ℤ} {rest : List ℤ}
    (hv : s.pm.newViewChan = v :: rest) (hl : nd.elec.isLeader nd.id v = true)
    (ha : Act nd In s { s with heap := s.heap.modify s.highQC (Cell.setView (s.pm.curView - 1)) }) :
    Kept P nd { s with heap := s.heap.modify s.highQC (Cell.setView (s.pm.curView - 1)) } s.highQC
      (b.stamp (s.pm.curView - 1)) b₀ q₀ := by
  obtain ⟨hup, hor⟩ := h.high rfl
  have hlate : Late nd s b → Late nd
      { s with heap := s.heap.modify s.highQC (Cell.setView (s.pm.curView - 1)) }
      (b.stamp (s.pm.curView - 1)) := fun hl => (hl.act ha).stamp _
  refine ⟨h.proposed, h.copy.stamp _, h.qc, Or.inr fun q hq => ?_, fun _ => ⟨hup, hor.imp_right hlate⟩⟩
  obtain ⟨q', -, rfl⟩ := Option.map_eq_some_iff.1 hq
  refine ⟨Int.sub_one_lt_of_le (Int.le_refl _), ?_⟩
  show q₀.view ≤ s.pm.curView - 1 ∨ _ ∧ (b.view - 1 ≤ s.pm.curView - 1 ∨ Led nd (b.view - 1))
  rcases hor with hlt | hla
  · exact Or.inl (by omega)
  · -- if the replica has not yet entered the block's view, the view it leads is an earlier one
    refine Or.inr ⟨hlate hla, ?_⟩
    by_cases hb : b.view ≤ s.pm.curView
    · exact Or.inl (by omega)
    · have hbounds := he.views v (by simp [hv])
      exact Or.inr ⟨v, hbounds.1, by omega, hl⟩

end Kept

/-- A certificate that `processCertificate` left behind is of a view that is over, or the block came
before its parent. -/
theorem Memory.taken (h : Memory P nd s) (he : Env P nd In s) (hp : s.heap[p]? = some (.block b))
    (hq : b.qc = some q) (ht : Taken nd In s q) :
    q.view < s.pm.curView ∨ s.bc.forrest.getVertex b.prevID = none := by
  obtain ⟨b₀, q₀, hk⟩ := h.block p b hp
  rcases ht with ⟨b', hb', hown⟩ | hpass | hlt | hnone
  · exact absurd hown (he.foreign b' hb')
  · exact absurd (he.passes p q ⟨_, hp, hq⟩) hpass
  · exact Or.inl hlt
  · refine Or.inr ?_
    rw [(hk.link he).1, ← (hk.cert hq).1]
    exact hnone

/-- In the first views a replica has the block of a certificate that it signed. -/
theorem Memory.stored_of_signer (h : Memory P nd s) (he : Env P nd In s) (hq : s.Holds p q)
    (hi : nd.id ∈ q.signers) (hcur : s.pm.curView ≤ 1) : s.bc.forrest.getVertex q.blockID ≠ none := by
  obtain ⟨c, lock, parent, hc, hid⟩ := he.signed p q hq hi
  exact hid ▸ (h.early hcur).2 c lock parent hc

theorem Memory.late_of_missing (h : Memory P nd s) (he : Env P nd In s)
    (hp : s.heap[p]? = some (.block b)) (hu : b.view ≤ s.pm.curView + 1)
    (hnone : s.bc.forrest.getVertex b.prevID = none) : Late nd s b := by
  obtain ⟨b₀, q₀, hk⟩ := h.block p b hp
  refine ⟨by omega, fun a ha => absurd (hnone.symm.trans ha) (by simp), fun q hq hi => ?_⟩
  by_contra hcur
  refine h.stored_of_signer he ⟨_, hp, hq⟩ hi (by omega) ?_
  rw [(hk.cert hq).1, ← (hk.link he).1]
  exact hnone

/-- When `highQC` comes to point to a block. -/
theorem Memory.high_act (h : Memory P nd s) (he : Env P nd In s) (ha : Act nd In s t)
    (hp : s.heap[p]? = some (.block b)) (hk : Kept P nd s p b b₀ q₀) (hh : p = t.highQC) :
    b.view ≤ t.pm.curView + 1 ∧ (q₀.view < t.pm.curView ∨ Late nd t b) := by
  have hcur := ha.curView_le
  subst hh
  rcases ha.highQC_cases with heq | ⟨b', q, hb', hq, hu, ht, -⟩ | ⟨q, ⟨c, hc, hq⟩, hv, hnew⟩
  · obtain ⟨hup, hor⟩ := hk.high heq
    exact ⟨by omega, hor.imp (by omega) fun hl => hl.act ha⟩
  · rw [hp] at hb'
    cases hb'
    refine ⟨by omega, ?_⟩
    rcases h.taken he hp hq ht with hlt | hnone
    · rcases hk.lowered hq with hle | ⟨hl, -⟩
      · exact Or.inl (by omega)
      · exact Or.inr (hl.act ha)
    · exact Or.inr ((h.late_of_missing he hp hu hnone).act ha)
  · rw [hp] at hc
    cases hc
    have heq := hk.current hq hv
    have hlink := (hk.link he).2
    subst heq
    exact ⟨by omega, Or.inl (by omega)⟩

theorem Memory.act (h : Memory P nd s) (he : Env P nd In s) (hok : Ok nd In s) (ha : Act nd In s t) :
    Memory P nd t where
  window := fun _ _ _ hc => h.window_act ha hc
  early := h.early_act ha
  block := by
    intro p b hb
    rcases ha.cell_cases hb with hb | ⟨c₀, v, rest, rfl, hc₀, hc, hv, hl, rfl⟩ | ⟨hp, hhigh, hn⟩
    · obtain ⟨b₀, q₀, hk⟩ := h.block p b hb
      exact ⟨b₀, q₀, hk.proposed, hk.copy, hk.qc, hk.act_stamped ha, h.high_act he ha hb hk⟩
    · cases c₀ with
      | block b' =>
        cases hc
        obtain ⟨b₀, q₀, hk⟩ := h.block _ b' hc₀
        exact ⟨b₀, q₀, hk.stamp he hv hl ha⟩
      | certificate q => cases hc
    · cases hn with
      | block hsrc =>
        have hP := he.heard b hsrc.heard
        obtain ⟨-, q, hq, -⟩ := he.proposal b hP
        refine ⟨b, q, hP, .refl b, hq, Or.inl rfl, fun hh => ?_⟩
        -- a new cell is not the one `highQC` points to
        obtain ⟨q', c, hc, -⟩ := hok.high
        have hlt := (List.getElem?_eq_some_iff.1 hc).1
        omega
  certificate := by
    intro p q hq
    have hcur := ha.curView_le
    rcases ha.cell_cases hq with hq | ⟨c₀, v, rest, rfl, hc₀, hc, hv, hl, rfl⟩ | ⟨hp, hhigh, hn⟩
    · refine (h.certificate p q hq).imp_right fun ⟨q₀, hb, hid, hle, hh⟩ =>
        ⟨q₀, ha.subset.2 hb, hid, hle, ?_⟩
      rintro rfl
      rcases ha.highQC_cases with heq | ⟨b', q', hb', -⟩ | ⟨q', ⟨c, hc, hq'⟩, hv, hnew⟩
      · have := hh heq
        omega
      · rw [hq] at hb'
        cases hb'
      · rw [hq] at hc
        cases hc
        cases hq'
        omega
    · cases c₀ with
      | block b => cases hc
      | certificate q' =>
        cases hc
        refine (h.certificate _ q' hc₀).imp_right fun ⟨q₀, hb, hid, hle, hh⟩ =>
          ⟨q₀, hb, hid, ?_, fun _ => hh rfl⟩
        have := hh rfl
        show q₀.view ≤ s.pm.curView - 1
        omega
    · cases hn with
      | certificate hv hc ht =>
        refine Or.inr ⟨_, ht, rfl, Int.le_refl _, fun hh => ?_⟩
        obtain ⟨q', c, hc', -⟩ := hok.high
        have hlt := (List.getElem?_eq_some_iff.1 hc').1
        omega

/-! ### In a network -/

theorem Kept.mono (h : Kept P nd s p b b₀ q₀) (hP : ∀ b, P b → P' b) : Kept P' nd s p b b₀ q₀ :=
  ⟨hP _ h.proposed, h.copy, h.qc, h.stamped, h.high⟩

theorem Memory.mono (h : Memory P nd s) (hP : ∀ b, P b → P' b) : Memory P' nd s where
  window := h.window
  early := h.early
  block := fun p b hb => by
    obtain ⟨b₀, q₀, hk⟩ := h.block p b hb
    exact ⟨b₀, q₀, hk.mono hP⟩
  certificate := h.certificate

theorem memory_new (n : ℕ) : Memory P nd (Tchs.new n) where
  window := fun _ _ _ h => by simp [Tchs.new] at h
  early := fun _ => ⟨rfl, fun _ _ _ h => by simp [Tchs.new] at h⟩
  block := fun p b h => by
    cases p with
    | zero => simp [Tchs.new] at h
    | succ p => simp [Tchs.new] at h
  certificate := fun p q h => by
    cases p with
    | zero =>
      have hq : QC.initial = q := by simpa [Tchs.new] using h
      exact Or.inl (hq ▸ rfl)
    | succ p => simp [Tchs.new] at h

variable {cf : Config} {members : List NodeID} {w : NodeID → Tchs} {i : NodeID}

/-- Blocks are broadcast by their proposers, who do not receive them. -/
theorem Sound.foreign (h : Sound cf members w) (hb : Net.SentTo Tchs.sent w i (.block b)) :
    b.proposer ≠ i := by
  obtain ⟨j, hj | ⟨hne, hj⟩⟩ := hb
  · obtain ⟨-, hdest, -⟩ := h.sent j _ hj
    cases hdest
  · obtain ⟨-, -, -, hprop, -⟩ := h.sent j _ hj
    rw [hprop]
    exact hne.symm

/-- Who signed a certificate has inserted the block it names. -/
theorem Fine.inserted (h : Fine cf members w q) (hs : Sound cf members w) (hi : i ∈ q.signers) :
    ∃ c lock parent, .accepted c lock parent ∈ (w i).trace ∧ c.id = q.blockID := by
  rcases h with hblank | ⟨b, hb⟩
  · rw [hblank.signers] at hi
    cases hi
  · obtain ⟨-, c, hc, hcopy⟩ := hb.voted i hi
    obtain ⟨-, lock, parent, hm⟩ := hs.voted i c hc
    exact ⟨c, lock, parent, hm, hcopy.id.trans hb.blockID.symm⟩

theorem env_of_reachable (hw : (tchsSteps cf members).Reachable w)
    (hid : CollisionFree (Proposed w)) (hsig : cf.SignaturesVerify) (i : NodeID) :
    Env (Proposed w) (cf.honest i) (Net.SentTo Tchs.sent w i) (w i) where
  unique := hid
  heard := fun _ hb => hb.sent
  foreign := fun _ hb => (sound_of_reachable hw hid).foreign hb
  proposal := fun b hb => by
    obtain ⟨-, -, -, -, q, hq, hprev, -, hview⟩ := (sound_of_reachable hw hid).proposal hb
    refine ⟨fun hself => ?_, q, hq, hprev, hview⟩
    exact Chain.acyclic ((rooted_of_reachable hw hid hb).acc hid) (.single ⟨hb, hb, hself.symm⟩)
  passes := fun _ _ hq =>
    ((sound_of_reachable hw hid).fine_of_holds (hw.ok i) hq).passes hsig i
  signed := fun _ _ hq hi =>
    ((sound_of_reachable hw hid).fine_of_holds (hw.ok i) hq).inserted (sound_of_reachable hw hid) hi
  views := fun v hv => (ordered_of_reachable hw i).bounds v (List.mem_append_right _ hv)

/-- **What is known of the memory of every replica, in every run.** -/
theorem memory_of_reachable (hw : (tchsSteps cf members).Reachable w)
    (hid : CollisionFree (Proposed w)) (hsig : cf.SignaturesVerify) (i : NodeID) :
    Memory (Proposed w) (cf.honest i) (w i) := by
  refine hw.invariant (P := fun w => CollisionFree (Proposed w))
    (J := fun w i s => Memory (Proposed w) (cf.honest i) s) (fun _ => memory_new cf.n)
    (fun ha => (Act.later ha).collisionFree) ?_ (fun ha h => h.mono (Act.later ha).proposed) hid i
  intro w j t hr hj hid ha h
  have hlater : Later w (Function.update w j t) := Act.later ha
  have henv := env_of_reachable hr (hlater.collisionFree hid) hsig j
  exact (h.act henv (hr.ok j) ha).mono hlater.proposed

end Tchs

end Bamboo
