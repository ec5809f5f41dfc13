import Bamboo.Tidy
import Bamboo.HotStuff.Locks

/-!
# What crashes a replica

`PubVerify` indexes the table of keys with whatever the sender wrote as a name, `ToECDSA` and
`VerifyQuorumSignature` index the lists of a message, `ProcessRemoteTmo` dereferences the certificate of a
timeout, and a commit walks through a forest that blocks have shaped.  Each of these stops the replica.

* `Sane`: the states in which a commit and a timeout go well;
* `Harmless`, `HarmlessCall`: the inputs, and the calls of `ProcessBlock`, that go well in such a state;
* `stays_up`: a replica that gets nothing else handles every message, and `messages_crash`.
-/

namespace Bamboo

namespace HotStuff

open Prog

variable {nd : Node} {s t u : HotStuff} {b : Block} {qc : QC}

/-- The check of the certificate gets to an answer. -/
def Checks (nd : Node) (qc : QC) : Prop := ∃ ok, checkQC nd qc = .ok ok

/-- A commit goes well, the certificates that wait pass their check, the blocks that wait are filed under
their predecessor's view, and the replica's own timeouts go well. -/
structure Sane (nd : Node) (s : HotStuff) : Prop where
  tidy : s.bc.forrest.Tidy
  qcs : ∀ id qc, s.bufferedQCs.lookup id = some qc → checkQC nd qc = .ok true
  blocks : ∀ v c, s.bufferedBlocks.lookup v = some c → c.view = v + 1
  high : s.pm.curView ≤ s.highQC.view → Checks nd s.highQC

/-- The inputs other than blocks that a replica can handle: a vote whose voter has a key and whose
signature has two parts, a timeout with a certificate whose check, if it is made, gets to an answer. -/
def Harmless (nd : Node) (s : HotStuff) : Safety.Input → Prop
  | .msg (.vote v) => ∃ ok, checkVote nd v = .ok ok
  | .msg (.tmo m) => ∃ qc, m.highQC = some qc ∧ (s.pm.curView ≤ qc.view → Checks nd qc)
  | _ => True

/-- A call of `ProcessBlock` that a replica can handle: the checks of the block and of its certificate,
if they are made, get to an answer, and the block fits into the forest. -/
structure HarmlessCall (nd : Node) (s : HotStuff) (b : Block) : Prop where
  sig : ∃ ok, checkBlock nd b = .ok ok
  qc : ∀ qc, b.qc = some qc → b.view ≤ s.pm.curView + 1 → s.pm.curView ≤ qc.view → Checks nd qc
  fits : b.view ≤ s.pm.curView + 1 → s.bc.forrest.Fits b

theorem sane_new (nd : Node) : Sane nd (.new nd.n) where
  tidy := LevelledForest.tidy_new
  qcs := fun id qc h => by simp [HotStuff.new] at h
  blocks := fun v c h => by simp [HotStuff.new] at h
  high := fun _ => by
    unfold Checks checkQC
    split_ifs
    · exact ⟨true, rfl⟩
    · exact ⟨true, rfl⟩

/-- A change that leaves forest, buffers and certificate alone and does not lower the view. -/
theorem Sane.congr (h : Sane nd s) (hf : t.bc.forrest = s.bc.forrest)
    (hq : t.bufferedQCs = s.bufferedQCs) (hb : t.bufferedBlocks = s.bufferedBlocks)
    (hh : t.highQC = s.highQC) (hv : s.pm.curView ≤ t.pm.curView) : Sane nd t where
  tidy := hf ▸ h.tidy
  qcs := hq ▸ h.qcs
  blocks := hb ▸ h.blocks
  high := fun hle => by
    rw [hh] at hle ⊢
    exact h.high (Int.le_trans hv hle)

/-- A handler that only prunes the forest and does not buffer a block has ended in a sane state. -/
structure Calm (nd : Node) (s t : HotStuff) : Prop where
  sane : Sane nd t
  shrinks : s.bc.forrest.Shrinks t.bc.forrest
  blocks : t.bufferedBlocks = s.bufferedBlocks

theorem Calm.refl (h : Sane nd s) : Calm nd s s := ⟨h, .refl _, rfl⟩

theorem Calm.trans (h : Calm nd s t) (h' : Calm nd t u) : Calm nd s u :=
  ⟨h'.sane, h.shrinks.trans h'.shrinks, h'.blocks.trans h.blocks⟩

theorem Calm.of_eq (h : Sane nd t) (hf : t.bc.forrest = s.bc.forrest)
    (hb : t.bufferedBlocks = s.bufferedBlocks) : Calm nd s t :=
  ⟨h, hf ▸ .refl _, hb⟩

/-! ### The handlers return -/

theorem tryCommit_calm (h : Sane nd s) (qc : QC) :
    wp (tryCommit qc) (fun _ t => Calm nd s t) (fun _ => False) s := by
  unfold tryCommit
  simp only [wp_bind, wp_get]
  cases s.commitRule qc with
  | none => exact .refl h
  | some g =>
    simp only [wp_bind, wp_zoom]
    refine wp_mono (BlockChain.commitBlock_tidy h.tidy g.id s.pm.curView) ?_ fun _ hf => hf
    rintro r bc ⟨htidy, hshrinks⟩
    have hbc : Calm nd s { s with bc := bc } := ⟨⟨htidy, h.qcs, h.blocks, h.high⟩, hshrinks, rfl⟩
    cases r with
    | none => exact hbc
    | some res => exact hbc.trans (.of_eq (hbc.sane.congr rfl rfl rfl rfl (Int.le_refl _)) rfl rfl)

/-- The certificate may raise the replica's own. -/
theorem Sane.updateHighQC (h : Sane nd s) (hqc : s.pm.curView ≤ qc.view → Checks nd qc) :
    Sane nd (s.updateHighQC qc) where
  tidy := by simpa using h.tidy
  qcs := by simpa using h.qcs
  blocks := by simpa using h.blocks
  high := by
    rw [updateHighQC_pm]
    rcases updateHighQC_highQC (s := s) qc with ⟨he, -⟩ | ⟨he, -⟩
    · rw [he]
      exact hqc
    · rw [he]
      exact h.high

/-- A certificate that passed its check may wait for its block. -/
theorem Sane.buffer (h : Sane nd s) (hqc : checkQC nd qc = .ok true) :
    Sane nd { s with bufferedQCs := s.bufferedQCs.insert qc.blockID qc } := by
  refine ⟨h.tidy, fun id qc' hl => ?_, h.blocks, h.high⟩
  dsimp only at hl
  by_cases hid : id = qc.blockID
  · subst hid
    rw [AList.lookup_insert] at hl
    cases hl
    exact hqc
  · rw [AList.lookup_insert_ne hid] at hl
    exact h.qcs id qc' hl

theorem processCertificate_calm (h : Sane nd s) (hqc : s.pm.curView ≤ qc.view → Checks nd qc) :
    wp (processCertificate nd qc) (fun _ t => Calm nd s t) (fun _ => False) s := by
  unfold processCertificate
  simp only [wp_bind, wp_get, wp_ite, wp_pure, wp_ofExcept, wp_set]
  refine ⟨fun _ => .refl h, fun hold => ?_⟩
  obtain ⟨ok, hok⟩ := hqc (by omega)
  rw [hok]
  refine ⟨fun ok' hok' => ⟨fun _ => .refl h, fun htrue => ⟨fun _ => ?_, fun _ => ?_⟩⟩,
    fun e he => by cases he⟩
  · exact .of_eq (h.congr rfl rfl rfl rfl (s.pm.curView_le_advanceView _)) rfl rfl
  · cases ht : s.updatePreferredView qc with
    | none =>
      cases hok'
      exact .of_eq (h.buffer (by rw [hok]; simpa using htrue)) rfl rfl
    | some t =>
      obtain ⟨v, rfl, -⟩ := updatePreferredView_cases ht
      -- the replica's view is now above that of the certificate
      have h₁ : Sane nd ({ s with preferredView := v, pm := s.pm.advanceView qc.view }.updateHighQC qc) := by
        refine Sane.updateHighQC (h.congr rfl rfl rfl rfl (s.pm.curView_le_advanceView _)) fun hle => ?_
        rw [Pacemaker.advanceView_of_le (by omega)] at hle
        dsimp only at hle
        omega
      have hc₁ := Calm.of_eq (s := s) h₁ (by simp) (by simp)
      simp only [wp_bind, wp_set, wp_ite, wp_pure]
      exact ⟨fun _ => hc₁, fun _ => wp_mono (tryCommit_calm h₁ qc) (fun _ _ hc => hc₁.trans hc) fun _ hf => hf⟩

theorem processVote_calm (h : Sane nd s) {v : Vote} (hv : ∃ ok, checkVote nd v = .ok ok) :
    wp (processVote nd v) (fun _ t => Calm nd s t) (fun _ => False) s := by
  obtain ⟨ok, hok⟩ := hv
  unfold processVote
  simp only [wp_bind, wp_get, wp_ite, wp_pure, wp_ofExcept, hok]
  refine ⟨fun _ _ => ⟨fun _ => .refl h, fun _ => ?_⟩, fun e he => by cases he⟩
  have hf : (s.bc.addVote nd.toConfig v).2.forrest = s.bc.forrest := rfl
  generalize s.bc.addVote nd.toConfig v = r at hf ⊢
  obtain ⟨built, bc⟩ := r
  dsimp only at hf ⊢
  have hbc : Calm nd s { s with bc := bc } :=
    .of_eq (h.congr hf rfl rfl rfl (Int.le_refl _)) hf rfl
  cases built with
  | none => exact hbc
  | some qc =>
    -- a certificate of the replica's own making is not checked
    have hpass : checkQC nd { qc with leader := nd.id } = .ok true := if_neg fun hne => hne rfl
    refine wp_bind.2 (wp_modify.2 ?_)
    cases bc.getBlockByID qc.blockID with
    | none =>
      exact hbc.trans (.of_eq ((hbc.sane.buffer hpass).congr rfl rfl rfl rfl (Int.le_refl _)) rfl rfl)
    | some _ =>
      have hn := hbc.trans (.of_eq (t := { s with
        bc := bc
        trace := s.trace ++ [Entry.built { qc with leader := nd.id }] })
        (hbc.sane.congr rfl rfl rfl rfl (Int.le_refl _)) rfl rfl)
      exact wp_mono (processCertificate_calm hn.sane fun _ => ⟨true, hpass⟩) (fun _ _ hc => hn.trans hc)
        fun _ hf => hf

theorem processRemoteTmo_calm (h : Sane nd s) {m : TMO} (hm : m.highQC = some qc)
    (hqc : s.pm.curView ≤ qc.view → Checks nd qc) :
    wp (processRemoteTmo nd m) (fun _ t => Calm nd s t) (fun _ => False) s := by
  unfold processRemoteTmo
  simp only [wp_bind, hm]
  refine wp_mono (processCertificate_calm h hqc) (fun _ t ht => ?_) fun _ hf => hf
  simp only [wp_get, wp_set]
  obtain ⟨tcl, hpm, -⟩ := t.pm.processRemoteTmo_cases m
  have ht' : Calm nd s { t with pm := (t.pm.processRemoteTmo m).2 } :=
    ht.trans (.of_eq (ht.sane.congr rfl rfl rfl rfl (by rw [hpm])) rfl rfl)
  cases (t.pm.processRemoteTmo m).1 with
  | none => exact ht'
  | some tc =>
    unfold processTC
    simp only [wp_bind, wp_get, wp_ite, wp_pure, wp_set]
    refine ⟨fun _ => ht', fun _ => ?_⟩
    exact ht'.trans (.of_eq (ht'.sane.congr rfl rfl rfl rfl (Pacemaker.curView_le_advanceView _ _)) rfl rfl)

theorem processLocalTmo_calm (h : Sane nd s) (view : ℤ) :
    wp (processLocalTmo nd view) (fun _ t => Calm nd s t) (fun _ => False) s := by
  unfold processLocalTmo
  refine wp_bind.2 (wp_modify.2 (wp_bind.2 (wp_get.2 (wp_bind.2 (wp_modify.2 ?_)))))
  have h' : Sane nd (send ⟨none, .tmo ⟨view + 1, nd.id, some s.highQC⟩⟩
      { s with pm := s.pm.advanceView view }) :=
    h.congr rfl rfl rfl rfl (s.pm.curView_le_advanceView view)
  exact wp_mono (processRemoteTmo_calm h' rfl h'.high) (fun _ _ ht => (Calm.of_eq (s := s) h' rfl rfl).trans ht)
    fun _ hf => hf

/-! ### `ProcessBlock` returns -/

theorem vetBlock_calm (h : Sane nd s) (hb : HarmlessCall nd s b) :
    wp (vetBlock nd b) (fun r t => Sane nd t ∧ (r = none → Calm nd s t ∧ b.view ≤ s.pm.curView + 1 ∧
      b.qc ≠ none)) (fun _ => False) s := by
  obtain ⟨ok, hok⟩ := hb.sig
  unfold vetBlock
  simp only [wp_bind, wp_get, wp_ofExcept, wp_ite, wp_set, wp_pure, hok]
  refine ⟨fun _ _ => ⟨fun _ => ⟨?_, fun h => by cases h⟩, fun hnear => ?_⟩, fun e he => by cases he⟩
  · -- the block is buffered
    refine ⟨h.tidy, h.qcs, fun v c hl => ?_, h.high⟩
    dsimp only at hl
    by_cases hv : v = b.view - 1
    · subst hv
      rw [AList.lookup_insert] at hl
      cases hl
      omega
    · rw [AList.lookup_insert_ne hv] at hl
      exact h.blocks v c hl
  cases hqc : b.qc with
  | none => exact ⟨h, fun h => by cases h⟩
  | some qc =>
    have hnear' : b.view ≤ s.pm.curView + 1 := by omega
    have h₁ : Sane nd (offeredState s b qc) :=
      Sane.updateHighQC (h.congr rfl rfl rfl rfl (Int.le_refl _)) (hb.qc qc hqc hnear')
    have hproc : wp (if b.proposer ≠ nd.id then processCertificate nd qc else pure ())
        (fun _ t => Calm nd s t) (fun _ => False) (offeredState s b qc) := by
      have hc₁ : Calm nd s (offeredState s b qc) :=
        .of_eq h₁ (by simp [offeredState]) (by simp [offeredState])
      refine wp_ite.2 ⟨fun _ => ?_, fun _ => hc₁⟩
      have hpm : (offeredState s b qc).pm = s.pm := by simp [offeredState]
      refine wp_mono (processCertificate_calm h₁ ?_) (fun _ _ hc => hc₁.trans hc) fun _ hf => hf
      rw [hpm]
      exact hb.qc qc hqc hnear'
    refine wp_bind.2 (wp_modify.2 (wp_bind.2 (wp_modify.2 (wp_bind.2 (wp_mono hproc ?_ fun _ hf => hf)))))
    intro _ u hu
    simp only [wp_bind, wp_get, wp_ite, wp_pure]
    exact ⟨fun _ => ⟨hu.sane, fun h => by cases h⟩, fun _ => ⟨fun _ => ⟨hu.sane, fun h => by cases h⟩,
      fun _ => ⟨hu.sane, fun _ => ⟨hu, hnear', by simp⟩⟩⟩⟩

/-- The block is stored and the certificate that waited for it is processed. -/
theorem insertBlock_sane (h : Sane nd s) (hfit : s.bc.forrest.Fits b) (hqc : b.qc ≠ none) :
    wp (insertBlock nd b) (fun _ t => Sane nd t ∧ t.bufferedBlocks = s.bufferedBlocks)
      (fun _ => False) s := by
  unfold insertBlock
  refine wp_bind.2 (wp_get.2 (wp_bind.2 (wp_modify.2 (wp_bind.2 (wp_zoom.2 (wp_zoom.2
    (wp_mono (hfit.addVertex h.tidy hqc) (fun _ f hf => ?_) fun _ hf => hf)))))))
  have h₁ : Sane nd { s with
      bc := { s.bc with forrest := f }
      trace := s.trace ++ [.accepted b s.preferredView (s.bc.getBlockByID b.prevID)] } :=
    ⟨hf, h.qcs, h.blocks, h.high⟩
  unfold processBufferedQC
  refine wp_bind.2 (wp_get.2 ?_)
  dsimp only
  cases hl : s.bufferedQCs.lookup b.id with
  | none => exact ⟨h₁, rfl⟩
  | some qc =>
    refine wp_bind.2 (wp_mono (m := processCertificate nd qc)
      (processCertificate_calm h₁ fun _ => ⟨true, h.qcs _ _ hl⟩) (fun _ t ht => ?_) fun _ hf => hf)
    refine wp_modify.2 ⟨⟨ht.sane.tidy, fun id qc' hl' => ?_, ht.sane.blocks, ht.sane.high⟩, ht.blocks⟩
    dsimp only at hl'
    by_cases hid : id = b.id
    · subst hid
      rw [AList.lookup_erase] at hl'
      cases hl'
    · rw [AList.lookup_erase_ne hid] at hl'
      exact ht.sane.qcs id qc' hl'

/-- A replica with a key can vote. -/
theorem castVote_sane (hkey : ∃ k, keyIndex nd.toConfig nd.id = .ok k) (h : Sane nd s) (b : Block) :
    wp (castVote nd b) (fun _ t => Sane nd t ∧ t.bufferedBlocks = s.bufferedBlocks) (fun _ => False) s := by
  obtain ⟨k, hk⟩ := hkey
  unfold castVote
  simp only [wp_bind, wp_get]
  cases s.votingRule b with
  | none => exact ⟨h, rfl⟩
  | some vote =>
    cases vote with
    | false => exact ⟨h, rfl⟩
    | true =>
      simp only [wp_bind, wp_ofExcept]
      refine ⟨fun v hv => wp_modify.2 ?_, fun e he => ?_⟩
      · have h' : Sane nd { s with trace := s.trace ++ [.voted b] } :=
          h.congr rfl rfl rfl rfl (Int.le_refl _)
        have hcheck : checkVote nd v = .ok true := if_neg (not_not.2 (makeVote_eq_ok hv).2.1)
        simp only [wp_ite, wp_pure]
        refine ⟨fun _ => wp_mono (processVote_calm h' ⟨true, hcheck⟩) (fun _ _ ht => ⟨ht.sane, ht.blocks⟩)
          fun _ hf => hf, fun _ => wp_modify.2 ⟨h'.congr rfl rfl rfl rfl (Int.le_refl _), rfl⟩⟩
      · simp [makeVote, privSign, hk, bind, Except.bind, pure, Except.pure] at he

theorem insertAndVote_sane (hkey : ∃ k, keyIndex nd.toConfig nd.id = .ok k) (h : Sane nd s)
    (hfit : s.bc.forrest.Fits b) (hqc : b.qc ≠ none) :
    wp (insertAndVote nd b) (fun _ t => Sane nd t ∧ t.bufferedBlocks = s.bufferedBlocks)
      (fun _ => False) s := by
  rw [insertAndVote_eq]
  refine wp_bind.2 (wp_mono (insertBlock_sane h hfit hqc) ?_ fun _ hf => hf)
  rintro _ t ⟨ht, hbt⟩
  exact wp_mono (castVote_sane hkey ht b) (fun _ u hu => ⟨hu.1, hu.2.trans hbt⟩) fun _ hf => hf

/-- The buffered blocks that may still be processed after a block of a view. -/
def waiting (m : GoMap ℤ Block) (view : ℤ) : ℕ := (m.keys.filter (view ≤ ·)).length

theorem waiting_succ_lt {m : GoMap ℤ Block} {view : ℤ} {c : Block} (h : m.lookup view = some c) :
    waiting m (view + 1) < waiting m view := by
  refine Walk.length_filter_lt (fun x hx => ?_) (GoMap.mem_keys h) (by simp) (by
    rw [decide_eq_true_eq]
    omega)
  rw [decide_eq_true_eq] at hx ⊢
  omega

/-- The depth that `ProcessBlock` starts with is enough. -/
theorem waiting_lt (m : GoMap ℤ Block) (view : ℤ) : waiting m view < m.entries.length + 1 := by
  refine Nat.lt_succ_of_le ((List.length_filter_le _ _).trans ?_)
  rw [AList.keys, List.keys, List.length_map]

/-- **`ProcessBlock` returns** if it and the calls it leads to are harmless. -/
theorem processBlockN_sane (hkey : ∃ k, keyIndex nd.toConfig nd.id = .ok k) {fuel : ℕ} (h : Sane nd s)
    (hcalls : ∀ s' b', Rounds nd s b s' b' → HarmlessCall nd s' b')
    (hfuel : waiting s.bufferedBlocks b.view < fuel) :
    wp (processBlockN nd fuel b) (fun _ t => Sane nd t) (fun _ => False) s := by
  induction fuel generalizing s b with
  | zero => exact absurd hfuel (Nat.not_lt_zero _)
  | succ fuel ih =>
    unfold processBlockN
    have hb := hcalls s b .first
    refine wp_bind.2 (wp_mono (wp_and (vetBlock_calm h hb) wp_self) ?_ fun _ hf => hf.1)
    rintro r t ⟨⟨ht, hnone⟩, hv⟩
    cases r with
    | some err => exact ht
    | none =>
      obtain ⟨hcalm, hnear, hqc⟩ := hnone rfl
      have hfit := (hb.fits hnear).shrinks hcalm.shrinks
      refine wp_bind.2 (wp_mono (wp_and (insertAndVote_sane hkey ht hfit hqc) wp_self) ?_ fun _ hf => hf.1)
      rintro r u ⟨⟨hu, hbu⟩, hi⟩
      cases r with
      | some err => exact hu
      | none =>
        refine wp_bind.2 (wp_get.2 ?_)
        cases hl : u.bufferedBlocks.lookup b.view with
        | none => exact hu
        | some c =>
          -- the next block is one view further, and the buffer has not changed
          have hview := hu.blocks _ _ hl
          have hlt : waiting u.bufferedBlocks c.view < fuel := by
            have := waiting_succ_lt hl
            rw [hview]
            rw [hbu, hcalm.blocks] at this ⊢
            omega
          refine wp_bind.2 (wp_mono (ih hu (fun s' b' hr => hcalls s' b' (.next hv hi hl hr)) hlt) ?_
            fun _ hf => hf)
          intro _ x hx
          refine wp_bind.2 (wp_modify.2 ⟨hx.tidy, hx.qcs, fun v c' hl' => ?_, hx.high⟩)
          dsimp only at hl'
          by_cases hv' : v = b.view
          · subst hv'
            rw [AList.lookup_erase] at hl'
            cases hl'
          · rw [AList.lookup_erase_ne hv'] at hl'
            exact hx.blocks v c' hl'

theorem processBlock_sane (hkey : ∃ k, keyIndex nd.toConfig nd.id = .ok k) (h : Sane nd s)
    (hcalls : ∀ s' b', Rounds nd s b s' b' → HarmlessCall nd s' b') :
    wp ((safety nd).processBlock b) (fun _ t => Sane nd t) (fun _ => False) s := by
  have hsane := processBlockN_sane hkey h hcalls (waiting_lt _ _)
  exact wp_bind.2 (wp_mono (wp_bind.2 (wp_get.2 hsane)) (fun _ _ ht => ht) fun _ hf => hf)

/-! ### Runs -/

/-- The proposal for a view. -/
theorem makeProposals_returns (hkey : ∃ k, keyIndex nd.toConfig nd.id = .ok k)
    (hfork : nd.isByz = false ∨ nd.fork = false) (view : ℤ) (payload : List Transaction)
    (pBatch : PBatch) :
    wp (if 1 < view then makePProposal nd view pBatch else makeProposal nd view payload)
      (fun _ t => t = s) (fun _ => False) s := by
  obtain ⟨k, hk⟩ := hkey
  have hchoice : wp (forkChoice nd) (fun _ t => t = s) (fun _ => False) s := by
    unfold forkChoice
    simp only [wp_bind, wp_get, wp_ite, wp_pure]
    exact ⟨fun _ => trivial, fun hn => absurd hfork hn⟩
  refine wp_ite.2 ⟨fun _ => ?_, fun _ => ?_⟩
  · unfold makePProposal
    refine wp_bind.2 (wp_mono hchoice (fun qc t ht => wp_ofExcept.2 ⟨fun _ _ => ht, fun e he => ?_⟩)
      fun _ hf => hf)
    simp [makePBlock, privSign, hk, bind, Except.bind, pure, Except.pure] at he
  · unfold makeProposal
    refine wp_bind.2 (wp_mono hchoice (fun qc t ht => wp_ofExcept.2 ⟨fun _ _ => ht, fun e he => ?_⟩)
      fun _ hf => hf)
    simp [makeBlock, privSign, hk, bind, Except.bind, pure, Except.pure] at he

/-- One event of the replica. -/
theorem handleEvent_sane (hkey : ∃ k, keyIndex nd.toConfig nd.id = .ok k)
    (hfork : nd.isByz = false ∨ nd.fork = false) (h : Sane nd s) {e : Event}
    (hcalls : ∀ s₀ b₀ s' b', Called₀ nd s (.event e) s₀ b₀ → Rounds nd s₀ b₀ s' b' → HarmlessCall nd s' b') :
    wp ((safety nd).handleEvent nd e) (fun _ t => Sane nd t) (fun _ => False) s := by
  cases e with
  | txn =>
    show wp ((safety nd).handleTxn nd) _ _ s
    unfold Safety.handleTxn
    simp only [wp_bind, wp_get, wp_ite, wp_set, wp_pure]
    exact ⟨fun _ => h.congr rfl rfl rfl rfl (s.pm.curView_le_advanceView 0), fun _ => h⟩
  | timer =>
    exact wp_bind.2 (wp_get.2 (wp_mono (processLocalTmo_calm h _) (fun _ _ ht => ht.sane) fun _ hf => hf))
  | newView payload pBatch =>
    show wp ((safety nd).processNewView nd payload pBatch) _ _ s
    unfold Safety.processNewView
    refine wp_bind.2 (wp_get.2 ?_)
    cases hq : ((safety nd).pm s).newViewChan with
    | nil => exact h
    | cons v rest =>
      have h' : Sane nd { s with pm := { s.pm with newViewChan := rest } } :=
        h.congr rfl rfl rfl rfl (Int.le_refl _)
      refine wp_bind.2 (wp_set.2 (wp_ite.2 ⟨fun _ => h', fun hl => ?_⟩))
      unfold Safety.proposeBlock
      refine wp_bind.2 (wp_mono (wp_and (makeProposals_returns hkey hfork v payload pBatch) wp_self) ?_
        fun _ hf => hf.1)
      rintro b t ⟨rfl, hm⟩
      refine wp_bind.2 (wp_modify.2 (processBlock_sane hkey (h'.congr rfl rfl rfl rfl (Int.le_refl _))
        fun s' b' hr => ?_))
      exact hcalls _ b s' b' (.proposal hq (by simpa using hl) hm) hr

/-- One message. -/
theorem handleMsg_sane (hkey : ∃ k, keyIndex nd.toConfig nd.id = .ok k) (h : Sane nd s) {m : Msg}
    (hm : Harmless nd s (.msg m))
    (hcalls : ∀ s₀ b₀ s' b', Called₀ nd s (.msg m) s₀ b₀ → Rounds nd s₀ b₀ s' b' → HarmlessCall nd s' b') :
    wp ((safety nd).handleMsg m) (fun _ t => Sane nd t) (fun _ => False) s := by
  cases m with
  | block b => exact processBlock_sane hkey h fun s' b' hr => hcalls s b s' b' (.msg b) hr
  | vote v => exact wp_mono (processVote_calm h hm) (fun _ _ ht => ht.sane) fun _ hf => hf
  | tmo m =>
    obtain ⟨qc, hqc, hcheck⟩ := hm
    exact wp_mono (processRemoteTmo_calm h hqc hcheck) (fun _ _ ht => ht.sane) fun _ hf => hf

/-- **Run lemma**: on harmless inputs and calls a replica stays up and sane. -/
theorem run_sane (hkey : ∃ k, keyIndex nd.toConfig nd.id = .ok k)
    (hfork : nd.isByz = false ∨ nd.fork = false) {inputs : List Safety.Input}
    (hin : ∀ before x after, inputs = before ++ x :: after → Harmless nd (runOn nd before) x)
    (hcalls : ∀ s b, Called nd inputs s b → HarmlessCall nd s b) :
    ((safety nd).run nd (HotStuff.new nd.n) inputs).up = true ∧ Sane nd (runOn nd inputs) := by
  induction inputs using List.reverseRecOn with
  | nil => exact ⟨rfl, sane_new nd⟩
  | append_singleton inputs x ih =>
    obtain ⟨hup, hsane⟩ := ih (fun before y after he => hin before y (after ++ [x]) (by simp [he]))
      fun s b ⟨before, y, after, s₀, b₀, he, h₀, hr⟩ =>
        hcalls s b ⟨before, y, after ++ [x], s₀, b₀, by simp [he], h₀, hr⟩
    have hx := hin inputs x [] rfl
    have hcx : ∀ s₀ b₀ s' b', Called₀ nd (runOn nd inputs) x s₀ b₀ → Rounds nd s₀ b₀ s' b' →
        HarmlessCall nd s' b' := fun s₀ b₀ s' b' h₀ hr =>
      hcalls s' b' ⟨inputs, x, [], s₀, b₀, rfl, h₀, hr⟩
    unfold runOn at hsane hx hcx ⊢
    rw [Safety.run_concat]
    unfold Safety.step Net.Proc.run
    rw [if_pos hup]
    cases x with
    | msg m =>
      obtain ⟨_, t, ht, hst⟩ := exists_ok_of_wp (handleMsg_sane hkey hsane hx hcx)
      dsimp only
      rw [ht]
      exact ⟨rfl, hst⟩
    | event e =>
      obtain ⟨_, t, ht, hst⟩ := exists_ok_of_wp (handleEvent_sane hkey hfork hsane hcx)
      dsimp only
      rw [ht]
      exact ⟨rfl, hst⟩

/-- **Replicas that stay up.**  A replica with a key that is not forking, given harmless messages only and calling
`ProcessBlock` on harmless blocks only, within the bounds of views and view events, stays up, and its handlers
return on every message. -/
theorem stays_up (nd : Node) (hkey : ∃ k, keyIndex nd.toConfig nd.id = .ok k)
    (hfork : nd.isByz = false ∨ nd.fork = false) (inputs : List Safety.Input)
    (_hbound : (safety nd).Bounded nd (HotStuff.new nd.n) inputs)
    (hin : ∀ before x after, inputs = before ++ x :: after → Harmless nd (runOn nd before) x)
    (hcalls : ∀ s b, Called nd inputs s b → HarmlessCall nd s b) :
    ((safety nd).run nd (HotStuff.new nd.n) inputs).up = true ∧
      ∀ before m after, inputs = before ++ .msg m :: after →
        ∃ t, (safety nd).handleMsg m (runOn nd before) = .ok () t := by
  refine ⟨(run_sane hkey hfork hin hcalls).1, fun before m after he => ?_⟩
  have hsane : Sane nd (runOn nd before) := (run_sane hkey hfork
    (fun before' y after' he' => hin before' y (after' ++ .msg m :: after) (by simp [he, he']))
    fun s b ⟨before', y, after', s₀, b₀, he', h₀, hr⟩ =>
      hcalls s b ⟨before', y, after' ++ .msg m :: after, s₀, b₀, by simp [he, he'], h₀, hr⟩).2
  obtain ⟨_, t, ht, -⟩ := exists_ok_of_wp (handleMsg_sane hkey hsane (hin before _ after he)
    fun s₀ b₀ s' b' h₀ hr => hcalls s' b' ⟨before, _, after, s₀, b₀, he, h₀, hr⟩)
  exact ⟨t, ht⟩

/-- `HarmlessCall` as a test, for calls that do not lead to others. -/
def harmlessCall (nd : Node) (s : HotStuff) (b : Block) : Bool :=
  quietCall nd s b && (checkBlock nd b).toOption.isSome &&
    b.qc.all (fun qc => (checkQC nd qc).toOption.isSome) && s.bc.forrest.fits b

theorem harmlessCall_rounds (h : harmlessCall nd s b = true) {s' : HotStuff} {b' : Block}
    (hr : Rounds nd s b s' b') : HarmlessCall nd s' b' := by
  have hsome : ∀ {x : Except Fault Bool}, x.toOption.isSome = true → ∃ ok, x = .ok ok := by
    intro x hx
    cases x with
    | ok ok => exact ⟨ok, rfl⟩
    | error e => cases hx
  simp only [harmlessCall, Bool.and_eq_true, Option.all_eq_true] at h
  obtain ⟨⟨⟨hquiet, hsig⟩, hqc⟩, hfits⟩ := h
  obtain ⟨rfl, rfl, -⟩ := quietCall_rounds hquiet hr
  exact ⟨hsome hsig, fun qc h _ _ => hsome (hqc qc h), fun _ => LevelledForest.fits_of_test hfits⟩

/-- Blocks of views 1 to 4, a vote with a wrong signature, and a timeout. -/
def plainMsgs : List Msg :=
  fourBlocks.map .block ++
    [.vote ⟨4, "3", 4, FourNodes.signature 0 4⟩, .tmo ⟨5, "3", some (FourNodes.certificate 3)⟩]

theorem stays_up_plainMsgs :
    ((safety FourNodes.second).run FourNodes.second (HotStuff.new 4) (plainMsgs.map .msg)).up = true ∧
      ∀ before m after, plainMsgs.map .msg = before ++ .msg m :: after →
        ∃ t, (safety FourNodes.second).handleMsg m (runOn FourNodes.second before) = .ok () t := by
  refine stays_up FourNodes.second ⟨1, by decide_cbv⟩ (Or.inl rfl) (plainMsgs.map .msg)
    (Safety.bounded_of_test (by decide_cbv)) ?_ ?_
  · intro before x after he
    obtain ⟨ms₁, ms₂, hms, rfl, h₂⟩ := List.map_eq_append_iff.1 he
    obtain ⟨m, ms₃, rfl, rfl, -⟩ := List.map_eq_cons_iff.1 h₂
    have hm : m ∈ plainMsgs := by simp [hms]
    simp only [plainMsgs, fourBlocks, List.map_cons, List.map_nil, List.cons_append, List.nil_append,
      List.mem_cons, List.not_mem_nil, or_false] at hm
    rcases hm with rfl | rfl | rfl | rfl | rfl | rfl
    · trivial
    · trivial
    · trivial
    · trivial
    · exact ⟨false, by decide_cbv⟩
    · exact ⟨_, rfl, fun _ => ⟨true, by decide_cbv⟩⟩
  · intro s b hcall
    obtain ⟨k, b₀, hk, hr⟩ := called_msgs hcall
    have hall : (List.range fourBlocks.length).all (fun k => (fourBlocks[k]?).all fun b =>
        harmlessCall FourNodes.second (runOn FourNodes.second ((plainMsgs.take k).map .msg)) b) = true := by
      decide_cbv
    refine harmlessCall_rounds ?_ hr
    have hlt : k < fourBlocks.length := by
      by_contra hge
      rw [plainMsgs, List.getElem?_append_right (by simpa using hge)] at hk
      have hk' : Msg.block b₀ ∈ [Msg.vote ⟨4, "3", 4, FourNodes.signature 0 4⟩,
          .tmo ⟨5, "3", some (FourNodes.certificate 3)⟩] := List.mem_of_getElem? hk
      simp at hk'
    rw [plainMsgs, List.getElem?_append_left (by simpa using hlt), List.getElem?_map,
      Option.map_eq_some_iff] at hk
    obtain ⟨_, hk, he⟩ := hk
    cases he
    have := List.all_eq_true.1 hall k (List.mem_range.2 hlt)
    rw [hk] at this
    exact this

/-- A block of view 1 with a certificate for view 2 whose signature is wrong: it leaves a placeholder at
the front of level 2. -/
def placeholderBlock : Block :=
  ⟨1, some ⟨"1", 2, 99, ["3"], [FourNodes.signature 0 0], []⟩, "1", [], 99, FourNodes.signature 0 0, 30, none⟩

/-- **Messages that crash a replica**: a vote without a voter, a timeout without a certificate, a
certificate with a signer and no signature, and a placeholder at a level that is committed. -/
theorem messages_crash :
    let up (ms : List Msg) : Bool :=
      ((safety FourNodes.second).run FourNodes.second (HotStuff.new 4) (ms.map .msg)).up
    up [.vote ⟨1, "", 1, []⟩] = false ∧ up [.tmo ⟨1, "3", none⟩] = false ∧
      up [.block (FourNodes.block 1 ⟨"1", 0, 0, ["3"], [], []⟩)] = false ∧
      up [.block (FourNodes.block 1 .initial), .block placeholderBlock,
        .block (FourNodes.block 2 (FourNodes.certificate 1)),
        .block (FourNodes.block 3 (FourNodes.certificate 2)),
        .block (FourNodes.block 4 (FourNodes.certificate 3)),
        .block (FourNodes.block 5 (FourNodes.certificate 4))] = false := by
  decide_cbv

end HotStuff

end Bamboo
