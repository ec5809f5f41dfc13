import Bamboo.Tchs.Memory

/-!
# What a vote says in two-chain HotStuff

A replica votes for a block above view 2 after the commit that the block's certificate asks for, or it
leads an early view and the block's parent is late.

* `Accepted`: what an insertion says about the parent, if the replica had signed the certificate;
* `Granted`: what a vote says about parent and grandparent;
* `Record`: the invariant of one replica;
* `record_of_reachable`: it holds at every replica of a network.
-/

namespace Bamboo

namespace Tchs

/-- An inserted copy of `b₀`, which was sent with the certificate `q₀`.  If the replica had signed it,
the parent is of the next view at most, and below the block of view 1 there is only the first
certificate. -/
structure Accepted (P : Block → Prop) (nd : Node) (c b₀ : Block) (q₀ : QC) : Prop where
  proposed : P b₀
  copy : Copy c b₀
  qc : b₀.qc = some q₀
  parent : nd.id ∈ q₀.signers → ∃ a, P a ∧ a.id = q₀.blockID ∧ a.view ≤ c.view + 1
  first : nd.id ∈ q₀.signers → c.view ≤ 1 → q₀.view ≤ 0

/-- A vote above view 2: the parent `a`, and the grandparent two views below, or the parent is of the view
before or later. -/
def Granted (P : Block → Prop) (nd : Node) (c : Block) : Prop :=
  ∃ a, P a ∧ a.id = c.prevID ∧
    ((∃ g, ParentOf P g a ∧ g.view + 2 = c.view) ∨ c.view - 1 ≤ a.view ∧ Led nd (c.view - 1))

/-- The certificate names a block whose parent `g`, of the view before the certificate's, was
committed. -/
def Settled (P : Block → Prop) (q : QC) (g : Block) : Prop :=
  ∃ a g₀, P a ∧ a.id = q.blockID ∧ ParentOf P g₀ a ∧ Copy g g₀ ∧ g₀.view + 1 = q.view

/-- What the trace of a replica says; `P` are the blocks of the network. -/
structure Record (P : Block → Prop) (nd : Node) (s : Tchs) : Prop where
  accepted : ∀ c lock parent, .accepted c lock parent ∈ s.trace → ∃ b₀ q₀, Accepted P nd c b₀ q₀
  waiting : ∀ c q, pending s.trace = some c → c.qc = some q →
    q.view + 1 = c.view ∨ s.bc.forrest.getVertex c.prevID = none ∨ Late nd s c ∧ Led nd (c.view - 1)
  committed : ∀ q g f batch, .committed q g f batch ∈ s.trace → Settled P q g
  voted : ∀ c, .voted c ∈ s.trace → 2 < c.view → Granted P nd c

variable {P P' : Block → Prop} {nd : Node} {In : Msg → Prop} {s t : Tchs} {p : ℕ} {b c : Block} {q : QC}

namespace Memory

/-- The block's certificate in memory, and what is known of it when the block is inserted. -/
theorem admitted (h : Memory P nd s) (he : Env P nd In s) (hadm : Admitted nd In s p c) :
    ∃ b₀ q₀ q, Kept P nd s p c b₀ q₀ ∧ c.qc = some q ∧
      (q.view < s.pm.curView ∨ s.bc.forrest.getVertex c.prevID = none) := by
  obtain ⟨b₀, q₀, hk⟩ := h.block p c hadm.cell
  obtain ⟨q, hq, ht⟩ := hadm.taken
  exact ⟨b₀, q₀, q, hk, hq, h.taken he hadm.cell hq ht⟩

theorem accepted (h : Memory P nd s) (hr : Record P nd s) (he : Env P nd In s)
    (hadm : Admitted nd In s p c) : ∃ b₀ q₀, Accepted P nd c b₀ q₀ := by
  obtain ⟨b₀, q₀, q, hk, hq, hor⟩ := h.admitted he hadm
  obtain ⟨hid, hsign⟩ := hk.cert hq
  have hlow := hadm.lower
  refine ⟨b₀, q₀, hk.proposed, hk.copy, hk.qc, fun hi => ?_, fun hi h1 => ?_⟩
  · -- the replica had inserted the parent before
    obtain ⟨a, lock, parent, ha, haid⟩ := he.signed p q ⟨_, hadm.cell, hq⟩ (hsign ▸ hi)
    obtain ⟨a₀, qa, hacc⟩ := hr.accepted a lock parent ha
    have hwin := h.window a lock parent ha
    refine ⟨a₀, hacc.proposed, by rw [← hacc.copy.id, haid, hid], ?_⟩
    rw [← hacc.copy.view]
    omega
  · -- and still has it, in view 1
    have hstored := h.stored_of_signer he ⟨_, hadm.cell, hq⟩ (hsign ▸ hi) (by omega)
    rw [hid, ← (hk.link he).1] at hstored
    rcases hor with hlt | hnone
    · rcases hk.lowered hq with hle | ⟨hlate, -⟩
      · omega
      · have := hlate.signer q hq (hsign ▸ hi)
        omega
    · exact absurd hnone hstored

/-- The block that has just been inserted. -/
theorem waiting (h : Memory P nd s) (he : Env P nd In s) (ha : Act nd In s t)
    (hadm : Admitted nd In s p c) (hq : c.qc = some q) :
    q.view + 1 = c.view ∨ s.bc.forrest.getVertex c.prevID = none ∨ Late nd t c ∧ Led nd (c.view - 1) := by
  obtain ⟨b₀, q₀, q', hk, hq', hor⟩ := h.admitted he hadm
  rw [hq] at hq'
  cases hq'
  have hlink := (hk.link he).2
  have hlow := hadm.lower
  rcases hor with hlt | hnone
  · rcases hk.lowered hq with hle | ⟨hlate, hle | hled⟩
    · exact Or.inl (by omega)
    · exact Or.inl (by omega)
    · exact Or.inr (Or.inr ⟨hlate.act ha, hled⟩)
  · exact Or.inr (Or.inl hnone)

end Memory

namespace Record

/-- A block that is waiting for the vote is not its own parent, so the parent stays missing. -/
theorem missing_act (he : Env P nd In s) (ha : Act nd In s t) (hp : pending t.trace = some c)
    (hc : ∃ b₀, P b₀ ∧ Copy c b₀) (hnone : s.bc.forrest.getVertex c.prevID = none) :
    t.bc.forrest.getVertex c.prevID = none := by
  cases hx : t.bc.forrest.getVertex c.prevID with
  | none => rfl
  | some a =>
    exfalso
    rcases ha.stored hx with hs | ⟨haid, -, hp'⟩
    · rw [hnone] at hs
      cases hs
    · rw [hp] at hp'
      cases hp'
      obtain ⟨b₀, hb₀, hcopy⟩ := hc
      exact (he.proposal b₀ hb₀).1 (by rw [← hcopy.prevID, ← haid, hcopy.id])

/-- What the commit rule found. -/
theorem settled (he : Env P nd In s) (hok : Ok nd In s) {g : Block} (hg : s.commitRule q = some g) :
    Settled P q g := by
  obtain ⟨a, ha, hg', hv⟩ := commitRule_cases hg
  obtain ⟨haid, a₀, hac, hah⟩ := hok.stored _ _ ha
  obtain ⟨hgid, g₀, hgc, hgh⟩ := hok.stored _ _ hg'
  have hlink : g₀.id = a₀.prevID := by rw [← hgc.id, hgid, hac.prevID]
  exact ⟨a₀, g₀, he.heard _ hah, hac.id ▸ haid, ⟨he.heard _ hgh, he.heard _ hah, hlink⟩, hgc,
    hgc.view ▸ hv⟩

/-- What the voting rule and the commit before it found. -/
theorem granted (h : Record P nd s) (he : Env P nd In s) (hok : Ok nd In s)
    (hp : pending s.trace = some c) (hg : Gate s c) (hr : s.votingRule c = some true)
    (h2 : 2 < c.view) : Granted P nd c := by
  obtain ⟨lock, parent, hm⟩ := accepted_of_pending hp
  obtain ⟨b₀, q₀, hacc⟩ := h.accepted c lock parent hm
  obtain ⟨c', a, hc', ha, -⟩ := BlockChain.votingRule_cases hr h2
  obtain ⟨hcid, c₀, hcc, hch⟩ := hok.stored _ _ hc'
  obtain ⟨haid, a₀, hac, hah⟩ := hok.stored _ _ ha
  -- the stored block is a copy of the same one
  have hsame : c₀ = b₀ :=
    he.unique.inj (he.heard _ hch) hacc.proposed (by rw [← hcc.id, hcid, hacc.copy.id])
  have hprev : c'.prevID = c.prevID := by rw [hcc.prevID, hsame, hacc.copy.prevID]
  rw [hprev] at ha haid
  have haid₀ : a₀.id = c.prevID := hac.id ▸ haid
  refine ⟨a₀, he.heard _ hah, haid₀, ?_⟩
  obtain ⟨v, hq⟩ := hacc.copy.qc hacc.qc
  obtain ⟨-, q', hq', hlink, -⟩ := he.proposal b₀ hacc.proposed
  rw [hacc.qc] at hq'
  cases hq'
  rcases h.waiting c _ hp hq with hv | hnone | ⟨hlate, hled⟩
  · -- the certificate is of the view before, so there was a commit
    left
    dsimp only at hv
    obtain ⟨g, f, batch, hcom⟩ := hg _ hq (by dsimp only; omega) hv
    obtain ⟨a₁, g₀, ha₁, ha₁id, hpar, -, hgv⟩ := h.committed _ g f batch hcom
    have hsame' : a₁ = a₀ := by
      refine he.unique.inj ha₁ (he.heard _ hah) ?_
      rw [ha₁id, haid₀, hacc.copy.prevID, hlink]
    subst hsame'
    dsimp only at hgv
    exact ⟨g₀, hpar, by omega⟩
  · rw [hnone] at ha
    cases ha
  · exact Or.inr ⟨hac.view ▸ hlate.parent a ha, hled⟩

theorem act (h : Record P nd s) (hm : Memory P nd s) (he : Env P nd In s) (hok : Ok nd In s)
    (ha : Act nd In s t) : Record P nd t where
  accepted := by
    intro c lock parent hc
    rcases ha.mem_trace hc with hc | ⟨⟨p, hadm⟩, -⟩
    · exact h.accepted c lock parent hc
    · exact hm.accepted h he hadm
  waiting := by
    intro c q hp hq
    have hnew : (∃ p, Admitted nd In s p c) ∨ pending s.trace = some c := by
      rcases ha.trace_cases with ht | ⟨e, ht, hn⟩
      · exact Or.inr (ht ▸ hp)
      · rw [ht, pending_append] at hp
        cases e with
        | accepted c' lock parent =>
          cases hp
          exact Or.inl hn.1
        | voted c' => cases hp
        | _ => exact Or.inr hp
    rcases hnew with ⟨p, hadm⟩ | hp'
    · obtain ⟨b₀, q₀, hacc⟩ := hm.accepted h he hadm
      exact (hm.waiting he ha hadm hq).imp_right fun hor => hor.imp_left fun hnone =>
        missing_act he ha hp ⟨b₀, hacc.proposed, hacc.copy⟩ hnone
    · obtain ⟨lock, parent, hmem⟩ := accepted_of_pending hp'
      obtain ⟨b₀, q₀, hacc⟩ := h.accepted c lock parent hmem
      exact (h.waiting c q hp' hq).imp_right fun hor => hor.imp
        (fun hnone => missing_act he ha hp ⟨b₀, hacc.proposed, hacc.copy⟩ hnone)
        fun hl => ⟨hl.1.act ha, hl.2⟩
  committed := by
    intro q g f batch hc
    rcases ha.mem_trace hc with hc | ⟨-, -, hg, -⟩
    · exact h.committed q g f batch hc
    · exact settled he hok hg
  voted := by
    intro c hc h2
    rcases ha.mem_trace hc with hc | ⟨hp, hg, hr⟩
    · exact h.voted c hc h2
    · exact h.granted he hok hp hg hr h2

end Record

/-! ### In a network -/

theorem Accepted.mono {b₀ : Block} {q₀ : QC} (h : Accepted P nd c b₀ q₀) (hP : ∀ b, P b → P' b) :
    Accepted P' nd c b₀ q₀ where
  proposed := hP _ h.proposed
  copy := h.copy
  qc := h.qc
  parent := fun hi => by
    obtain ⟨a, ha, hid, hv⟩ := h.parent hi
    exact ⟨a, hP a ha, hid, hv⟩
  first := h.first

theorem Granted.mono (h : Granted P nd c) (hP : ∀ b, P b → P' b) : Granted P' nd c := by
  obtain ⟨a, ha, hid, hor⟩ := h
  refine ⟨a, hP a ha, hid, hor.imp_left fun ⟨g, hg, hv⟩ => ⟨g, hg.mono hP, hv⟩⟩

theorem Settled.mono {g : Block} (h : Settled P q g) (hP : ∀ b, P b → P' b) : Settled P' q g := by
  obtain ⟨a, g₀, ha, hid, hpar, hcopy, hv⟩ := h
  exact ⟨a, g₀, hP a ha, hid, hpar.mono hP, hcopy, hv⟩

theorem Record.mono (h : Record P nd s) (hP : ∀ b, P b → P' b) : Record P' nd s where
  accepted := fun c lock parent hc => by
    obtain ⟨b₀, q₀, hacc⟩ := h.accepted c lock parent hc
    exact ⟨b₀, q₀, hacc.mono hP⟩
  waiting := h.waiting
  committed := fun q g f batch hc => (h.committed q g f batch hc).mono hP
  voted := fun c hc h2 => (h.voted c hc h2).mono hP

theorem record_new (n : ℕ) : Record P nd (Tchs.new n) where
  accepted := fun _ _ _ h => by simp [Tchs.new] at h
  waiting := fun _ _ h => by simp [Tchs.new, pending] at h
  committed := fun _ _ _ _ h => by simp [Tchs.new] at h
  voted := fun _ h => by simp [Tchs.new] at h

variable {cf : Config} {members : List NodeID} {w : NodeID → Tchs}

/-- **What the trace of every replica says, in every run.** -/
theorem record_of_reachable (hw : (tchsSteps cf members).Reachable w)
    (hid : CollisionFree (Proposed w)) (hsig : cf.SignaturesVerify) (i : NodeID) :
    Record (Proposed w) (cf.honest i) (w i) := by
  refine hw.invariant (P := fun w => CollisionFree (Proposed w))
    (J := fun w i s => Record (Proposed w) (cf.honest i) s) (fun _ => record_new cf.n)
    (fun ha => (Act.later ha).collisionFree) ?_ (fun ha h => h.mono (Act.later ha).proposed) hid i
  intro w j t hr hj hid ha h
  have hlater : Later w (Function.update w j t) := Act.later ha
  have hid' := hlater.collisionFree hid
  have henv := env_of_reachable hr hid' hsig j
  have hmem := memory_of_reachable hr hid' hsig j
  exact (h.act hmem henv (hr.ok j) ha).mono hlater.proposed

end Tchs

end Bamboo
