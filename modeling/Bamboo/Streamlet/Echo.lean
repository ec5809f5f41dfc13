import Bamboo.Streamlet.Frames
import Bamboo.Streamlet.Shape

/-!
# The echo of a block

A replica passes a block on to the others before it stores it, unless the block's id is in `echoedBlock`.  Votes
are passed on under the same table, and a leader also broadcasts its proposals.

* `inserted`: the blocks that were stored under an id;
* `Mute`: what the other parts of the handlers leave alone;
* `Echoed`: the invariant for one block: nothing is broadcast and nothing in the table before the block is
  stored, and one broadcast after that;
* `echoed_once`: a block that is stored once, is not the replica's own and comes before its votes is broadcast
  once;
* `vote_silences_block`: a vote that comes first.
-/

namespace Bamboo

namespace Streamlet

open Prog

variable {nd : Node} {s t u : Streamlet} {b x : Block} {id depth : ℕ} {es : List Entry}

/-- The blocks that were stored under an id, in the order of time. -/
def inserted (id : ℕ) (trace : List Entry) : List Block :=
  trace.filterMap fun
    | .accepted b _ => if b.id = id then some b else none
    | _ => none

@[simp] theorem inserted_append (id : ℕ) (trace es : List Entry) :
    inserted id (trace ++ es) = inserted id trace ++ inserted id es := by
  simp [inserted]

/-- The number of times that the block was broadcast. -/
def broadcasts (b : Block) (sent : List Envelope) : ℕ := sent.count ⟨none, .block b⟩

theorem broadcasts_append (b : Block) (sent : List Envelope) (e : Envelope) :
    broadcasts b (sent ++ [e]) = broadcasts b sent + if e = ⟨none, .block b⟩ then 1 else 0 := by
  simp [broadcasts, List.count_append, List.count_singleton]

/-! ### What the other parts leave alone -/

/-- The block is neither stored nor passed on, and its id does not come into the table. -/
structure Mute (b : Block) (s t : Streamlet) : Prop where
  stored : inserted b.id t.trace = inserted b.id s.trace
  proposed : .proposed b ∈ s.trace → .proposed b ∈ t.trace
  echoed : s.echoedBlock.lookup b.id = none → t.echoedBlock.lookup b.id = none
  sent : broadcasts b t.sent = broadcasts b s.sent

theorem Mute.refl (b : Block) (s : Streamlet) : Mute b s s := ⟨rfl, fun h => h, fun h => h, rfl⟩

theorem Mute.trans (h : Mute b s t) (h' : Mute b t u) : Mute b s u where
  stored := h'.stored.trans h.stored
  proposed := fun hp => h'.proposed (h.proposed hp)
  echoed := fun he => h'.echoed (h.echoed he)
  sent := h'.sent.trans h.sent

theorem Mute.looked {l : List Entry} (hl : inserted b.id l = []) (s : Streamlet) : Mute b s (looked s l) where
  stored := by simp [Streamlet.looked, hl]
  proposed := fun h => List.mem_append_left _ h
  echoed := fun h => h
  sent := rfl

theorem inserted_of_isIndex (hes : ∀ e ∈ es, IsIndex e) : inserted id es = [] := by
  refine List.filterMap_eq_nil_iff.2 fun e he => ?_
  have := hes e he
  cases e with
  | index => rfl
  | _ => exact this.elim

instance (b : Block) : IsPreorder Streamlet (Mute b) where
  refl := Mute.refl b
  trans _ _ _ h h' := h.trans h'

theorem mute_of_glances {α : Type} {m : Go Streamlet α} (h : Moves Glanced m) (b : Block) : Moves (Mute b) m := by
  intro s
  refine wp_mono (h s) ?_ ?_
  · rintro _ _ ⟨es, hes, rfl⟩
    exact .looked (inserted_of_isIndex hes) s
  · rintro _ ⟨es, hes, rfl⟩
    exact .looked (inserted_of_isIndex hes) s

theorem lookup_foldl_erase_eq_none {m : GoMap ℕ Unit} (bs : List Block) (h : m.lookup id = none) :
    (bs.foldl (fun m b => m.erase b.id) m).lookup id = none := by
  induction bs generalizing m with
  | nil => exact h
  | cons b bs ih =>
    refine ih ?_
    by_cases hid : id = b.id
    · subst hid
      simp
    · rw [AList.lookup_erase_ne hid]
      exact h

theorem updateNotarizedChain_mute (b : Block) (qc : QC) : Moves (Mute b) (updateNotarizedChain qc) := by
  unfold updateNotarizedChain
  refine .get fun s => ?_
  cases s.bc.getBlockByID qc.blockID with
  | none => exact .refl b s
  | some x =>
    have hfound : Mute b s (Streamlet.looked s [.notarizing x s.notarizedChain]) := .looked rfl s
    refine wp_bind.2 (wp_modify.2 (wp_bind.2 (wp_mono
      (Moves.after hfound (mute_of_glances ?_ b _)) ?_ fun _ h => h)))
    · exact .ite (.pure _) (glances_findParent _ _ _)
    · intro r t ht
      exact wp_ite.2 ⟨fun _ => ⟨ht.stored, ht.proposed, ht.echoed, ht.sent⟩,
        fun _ => ⟨ht.stored, ht.proposed, ht.echoed, ht.sent⟩⟩

theorem tryCommit_mute (b : Block) : Moves (Mute b) tryCommit := by
  intro s
  unfold tryCommit
  refine wp_bind.2 (wp_mono (mute_of_glances glances_commitRule b s) (fun r t ht => ?_) fun _ h => h)
  cases r with
  | none => exact ht
  | some g =>
    refine wp_bind.2 (wp_get.2 (wp_bind.2 (wp_zoom.2 ?_)))
    have hbc : ∀ bc, Mute b s { t with bc := bc } := fun bc => ⟨ht.stored, ht.proposed, ht.echoed, ht.sent⟩
    refine wp_mono (wp_self (m := BlockChain.commitBlock g.id t.pm.curView)) (fun res bc _ => ?_)
      fun bc _ => hbc bc
    cases res with
    | none => exact hbc bc
    | some res =>
      have hnote := (hbc bc).trans (.looked (l := [.committed g t.notarizedChain res.1]) rfl _)
      refine wp_bind.2 (wp_modify.2 (wp_bind.2 (wp_modify.2 ?_)))
      exact ⟨hnote.stored, hnote.proposed, fun h => lookup_foldl_erase_eq_none _ (hnote.echoed h), hnote.sent⟩

theorem certify_mute (b : Block) (qc : QC) : Moves (Mute b) (certify nd qc) := by
  unfold certify
  refine .get fun s => wp_ite.2 ⟨fun _ => .refl b s, fun _ => wp_ite.2 ⟨fun _ => ?_, fun _ => ?_⟩⟩
  · exact wp_bind.2 (wp_set.2 ⟨rfl, fun h => h, fun h => h, rfl⟩)
  refine wp_bind.2 (wp_ofExcept.2 ⟨fun ok _ => wp_ite.2 ⟨fun _ => .refl b s, fun _ => ?_⟩, fun _ _ => .refl b s⟩)
  refine wp_bind.2 (wp_mono (updateNotarizedChain_mute b qc s) (fun r t ht => ?_) fun _ h => h)
  refine wp_ite.2 ⟨fun _ => ht, fun _ => wp_bind.2 (wp_modify.2 ?_)⟩
  have hpm : Mute b s { t with pm := t.pm.advanceView qc.view } := ⟨ht.stored, ht.proposed, ht.echoed, ht.sent⟩
  exact wp_ite.2 ⟨fun _ => hpm, fun _ => Moves.after hpm (tryCommit_mute b _)⟩

/-! ### The invariant -/

/-- As long as the replica does not propose the block itself: before a block is stored under the id, the id is
not in the table and the block has not been broadcast; when the block is the only one that was stored, it has
been broadcast once. -/
def Echoed (b : Block) (s : Streamlet) : Prop :=
  .proposed b ∉ s.trace →
    (inserted b.id s.trace = [] → s.echoedBlock.lookup b.id = none ∧ broadcasts b s.sent = 0) ∧
    (inserted b.id s.trace = [b] → broadcasts b s.sent = 1)

theorem Echoed.mute (h : Echoed b s) (hm : Mute b s t) : Echoed b t := by
  intro hp
  obtain ⟨h₀, h₁⟩ := h fun hp' => hp (hm.proposed hp')
  rw [hm.stored, hm.sent]
  exact ⟨fun hs => ⟨hm.echoed (h₀ hs).1, (h₀ hs).2⟩, h₁⟩

/-- A message other than the block, under an id that is stored or another one. -/
theorem Echoed.echo (h : Echoed b s) {m : Msg} (hm : m ≠ .block b)
    (hid : id = b.id → inserted b.id s.trace ≠ []) : wp (echo id m) (fun _ t => Echoed b t) (Echoed b) s := by
  unfold Streamlet.echo
  refine wp_bind.2 (wp_get.2 (wp_ite.2 ⟨fun _ => wp_set.2 fun hp => ?_, fun _ => h⟩))
  obtain ⟨h₀, h₁⟩ := h hp
  have hsent : broadcasts b (s.sent ++ [⟨none, m⟩]) = broadcasts b s.sent := by
    simp [broadcasts_append, hm]
  show (inserted b.id s.trace = [] → (s.echoedBlock.insert id ()).lookup b.id = none ∧ _) ∧ _
  simp only [send, hsent]
  refine ⟨fun hs => ⟨?_, (h₀ hs).2⟩, h₁⟩
  rw [AList.lookup_insert_ne fun heq => hid heq.symm hs]
  exact (h₀ hs).1

/-- A verified vote for the block comes when a block is stored under its id. -/
def Follows (nd : Node) (id : ℕ) (s : Streamlet) (v : Vote) : Prop :=
  checkVote nd v = .ok true → v.blockID = id → inserted id s.trace ≠ []

theorem Echoed.recordVote (h : Echoed b s) {v : Vote} (hv : Follows nd b.id s v) :
    wp (recordVote nd v) (fun _ t => Echoed b t) (Echoed b) s := by
  unfold Streamlet.recordVote
  refine wp_bind.2 (wp_ofExcept.2 ⟨fun ok hok => wp_ite.2 ⟨fun _ => h, fun htrue => ?_⟩, fun _ _ => h⟩)
  rw [Bool.not_eq_false] at htrue
  subst htrue
  refine wp_bind.2 (wp_mono (h.echo (by simp) (hv hok)) (fun _ t ht => wp_bind.2 (wp_get.2 ?_)) fun _ h => h)
  generalize t.bc.addVote nd.toConfig v = r
  obtain ⟨built, bc⟩ := r
  cases built with
  | none => exact wp_bind.2 (wp_set.2 ht)
  | some qc =>
    have hb : Echoed b { t with bc := bc } := ht
    exact wp_bind.2 (wp_set.2 (wp_bind.2 (wp_modify.2 (hb.mute (.looked (l := [.built qc]) rfl _)))))

/-- The block is passed on, unless its id is in the table. -/
def passedOn (x : Block) (s : Streamlet) : Streamlet :=
  if s.echoedBlock.lookup x.id = none then
    send ⟨none, .block x⟩ { s with echoedBlock := s.echoedBlock.insert x.id () }
  else s

theorem trace_passedOn (x : Block) (s : Streamlet) : (passedOn x s).trace = s.trace := by
  unfold passedOn
  split_ifs <;> rfl

/-- A block that goes on has been passed on. -/
theorem vetBlock_echo (x : Block) (s : Streamlet) :
    wp (vetBlock nd x) (fun r t => (r ≠ none → ∃ m, t = { s with bufferedBlocks := m }) ∧
      (r = none → t = passedOn x s)) (fun t => t = s) s := by
  unfold vetBlock
  have hstop : ∀ r : Option BlockError, (some r ≠ none → ∃ m, s = { s with bufferedBlocks := m }) ∧
      (some r = none → s = passedOn x s) :=
    fun r => ⟨fun _ => ⟨s.bufferedBlocks, rfl⟩, fun h => by cases h⟩
  refine wp_bind.2 (wp_get.2 (wp_ite.2 ⟨fun _ => hstop _, fun _ => wp_ite.2 ⟨fun _ => hstop _, fun _ => wp_ite.2
    ⟨fun _ => wp_bind.2 (wp_set.2 ⟨fun _ => ⟨_, rfl⟩, fun h => by cases h⟩), fun _ => wp_ite.2
    ⟨fun _ => hstop _, fun _ => ?_⟩⟩⟩⟩))
  refine wp_bind.2 (wp_ofExcept.2 ⟨fun _ _ => wp_bind.2 ?_, fun _ _ => rfl⟩)
  unfold echo
  refine wp_bind.2 (wp_get.2 (wp_ite.2 ⟨fun he => wp_set.2 ?_, fun he => ?_⟩))
  · exact ⟨fun h => absurd rfl h, fun _ => (if_pos he).symm⟩
  · exact ⟨fun h => absurd rfl h, fun _ => (if_neg he).symm⟩

/-- Another block is passed on and noted as stored. -/
theorem Mute.accepted (hid : x.id ≠ b.id) (chain : List (List Block)) (s : Streamlet) :
    Mute b s (Streamlet.looked (passedOn x s) [.accepted x chain]) := by
  refine .trans (t := passedOn x s) ?_ (.looked (by simp [inserted, hid]) _)
  unfold passedOn
  split_ifs with he
  · refine ⟨rfl, fun h => h, fun h => ?_, ?_⟩
    · show (s.echoedBlock.insert x.id ()).lookup b.id = none
      rw [AList.lookup_insert_ne (Ne.symm hid)]
      exact h
    · have hne : x ≠ b := fun h => hid (h ▸ rfl)
      simp [send, broadcasts_append, hne]
  · exact .refl b s

/-- The block is noted as stored right after it has been passed on. -/
theorem Echoed.accepted (h : Echoed b s) (x : Block) (chain : List (List Block)) :
    Echoed b (looked (passedOn x s) [.accepted x chain]) := by
  by_cases hid : x.id = b.id
  · have hins : inserted b.id (looked (passedOn x s) [.accepted x chain]).trace =
        inserted b.id s.trace ++ [x] := by
      simp [looked, trace_passedOn, inserted, hid]
    intro hp
    obtain ⟨h₀, -⟩ := h fun hp' => hp (by simp [looked, trace_passedOn, hp'])
    rw [hins]
    refine ⟨fun hs => by simp at hs, fun hs => ?_⟩
    -- nothing was stored under the id before, so the id is not in the table
    obtain ⟨hnil, hx⟩ := List.append_eq_singleton_iff.1 hs |>.resolve_right (by simp)
    obtain ⟨hnone, hzero⟩ := h₀ hnil
    cases hx
    show broadcasts b (passedOn b s).sent = 1
    rw [passedOn, if_pos hnone]
    simp [send, broadcasts_append, hzero]
  · exact h.mute (.accepted hid chain s)

/-- The rest of `insertBlock`. -/
theorem insertBlock_echo (h : Echoed b (looked s [.accepted x s.notarizedChain])) :
    wp (insertBlock x) (fun _ t => Echoed b t ∧ (x.id = b.id → inserted b.id t.trace ≠ [])) (Echoed b) s := by
  unfold insertBlock
  have hins : x.id = b.id → inserted b.id (looked s [.accepted x s.notarizedChain]).trace ≠ [] := by
    intro hid
    simp [looked, inserted, hid]
  refine wp_bind.2 (wp_get.2 (wp_bind.2 (wp_modify.2 (wp_bind.2 (wp_zoom.2 ?_)))))
  refine wp_mono (wp_self (m := BlockChain.addBlock x)) (fun _ bc _ => ?_) fun bc _ => h
  refine wp_bind.2 (wp_mono (mute_of_glances (glances_votingRule x) b _) (fun r t ht => ?_) fun t ht =>
    Echoed.mute (s := { looked s [.accepted x s.notarizedChain] with bc := bc }) h ht)
  have ht' : Echoed b t := Echoed.mute (s := { looked s [.accepted x s.notarizedChain] with bc := bc }) h ht
  have hins' : x.id = b.id → inserted b.id t.trace ≠ [] := by
    intro hid
    rw [ht.stored]
    exact hins hid
  exact wp_bind.2 (wp_ite.2 ⟨fun _ => wp_modify.2 ⟨ht', hins'⟩, fun _ => ⟨ht', hins'⟩⟩)

/-- **The handlers keep the invariant**, if votes for the block are processed when it is stored. -/
theorem kept_echoed (nd : Node) (b : Block) :
    Kept nd (fun _ => True) (Follows nd b.id) (Echoed b) where
  certify {s} qc h := wp_mono (certify_mute b qc s) (fun _ _ ht => h.mute ht) fun _ ht => h.mute ht
  recordVote h hv := h.recordVote hv
  insert {s x} h _ := by
    refine wp_mono (vetBlock_echo x s) (fun r t ht => ⟨fun hr => ?_, fun hr => ?_⟩) fun t ht => ht ▸ h
    · obtain ⟨m, rfl⟩ := ht.1 hr
      exact h
    · rw [ht.2 hr]
      refine wp_mono (insertBlock_echo (h.accepted x _)) (fun _ u hu => ⟨hu.1, fun v hv _ hid => ?_⟩) fun _ h => h
      rw [(makeVote_eq_ok hv).2.2.1] at hid
      simpa [looked, inserted] using hu.2 hid
  voted {s} x h := h.mute (.looked rfl s)
  sendVote {s x v} h _ _ := by
    refine h.mute ⟨rfl, fun h => h, fun h => h, ?_⟩
    simp [send, broadcasts_append]
  waiting _ _ := trivial
  dropBlock _ h := h
  dropQC _ h := h

/-! ### Runs -/

/-- A proposal that is made and broadcast is the block itself or another one. -/
theorem Echoed.propose (h : Echoed b s) (view : ℤ) (payload : List Transaction) (pBatch : PBatch) :
    wp (if 1 < view then makePProposal nd view pBatch else makeProposal nd view payload)
      (fun x t => Echoed b (send ⟨none, .block x⟩ t) ∧ True) (Echoed b) s := by
  have hmade : ∀ {t}, Mute b s t → ∀ x, Echoed b (send ⟨none, .block x⟩ (looked t [.proposed x])) := by
    intro t ht x
    by_cases hx : x = b
    · subst hx
      exact fun hp => absurd (by simp [send, looked]) hp
    · refine (h.mute ht).mute ⟨by simp [send, looked, inserted], fun h => by simp [send, looked, h],
        fun h => h, ?_⟩
      simp [send, looked, broadcasts_append, hx]
  refine wp_ite.2 ⟨fun _ => ?_, fun _ => ?_⟩
  · refine wp_bind.2 (wp_mono (mute_of_glances (glances_forkChoice nd) b s) (fun prev t ht => ?_)
      fun t ht => h.mute ht)
    refine wp_bind.2 (wp_ofExcept.2 ⟨fun x _ => ?_, fun _ _ => h.mute ht⟩)
    exact wp_bind.2 (wp_modify.2 ⟨hmade ht x, trivial⟩)
  · refine wp_bind.2 (wp_mono (mute_of_glances (glances_forkChoice nd) b s) (fun prev t ht => ?_)
      fun t ht => h.mute ht)
    refine wp_bind.2 (wp_ofExcept.2 ⟨fun x _ => ?_, fun _ _ => h.mute ht⟩)
    exact wp_bind.2 (wp_modify.2 ⟨hmade ht x, trivial⟩)

/-- One thing that is given to the replica. -/
theorem Echoed.give (h : Echoed b s) (depth : ℕ) (g : Given)
    (hv : ∀ v, g = .msg (.vote v) → Follows nd b.id s v) : Echoed b (give nd depth s g) := by
  have hkept := kept_echoed nd b
  have hpm : ∀ {s : Streamlet} (pm : Pacemaker) (pending : List ℤ), Echoed b s →
      Echoed b { s with pm := pm, pending := pending } := fun _ _ h => h
  cases g with
  | msg m =>
    refine wp_final.1 (hkept.handleMsg hpm h depth m (fun _ _ => trivial) fun v hm => ?_)
    exact hv v (hm ▸ rfl)
  | event e =>
    refine wp_final.1 (hkept.handleEvent hpm (fun m h => ?_)
      (fun view payload pBatch h => h.propose view payload pBatch) h depth e)
    refine h.mute ⟨rfl, fun h => h, fun h => h, ?_⟩
    simp [send, broadcasts_append]
  | certificate qc => exact wp_final.1 ((hkept.process depth).2.2 (h.mute (.looked (l := [.built qc]) rfl s)))

/-- The verified votes for the block are received when a block has been stored under its id. -/
def VotesFollow (nd : Node) (depth : ℕ) (gs : List Given) (id : ℕ) : Prop :=
  ∀ k v, gs[k]? = some (.msg (.vote v)) → Follows nd id (feed nd depth (gs.take k)) v

theorem echoed_feed {gs : List Given} (h : VotesFollow nd depth gs b.id) : Echoed b (feed nd depth gs) := by
  induction gs using List.reverseRecOn with
  | nil =>
    intro _
    exact ⟨fun _ => ⟨rfl, rfl⟩, fun hs => by cases hs⟩
  | append_singleton gs g ih =>
    have hfeed : feed nd depth (gs ++ [g]) = give nd depth (feed nd depth gs) g := by
      simp [feed]
    rw [hfeed]
    refine (ih fun k v hk => ?_).give depth g fun v hg => ?_
    · have hlt := (List.getElem?_eq_some_iff.1 hk).1
      have := h k v (by rw [List.getElem?_append_left hlt, hk])
      rwa [List.take_append_of_le_length hlt.le] at this
    · have := h gs.length v (by simp [hg])
      rwa [List.take_left] at this

/-- **A block is echoed once.**  Take any run of a replica in which one block is stored under its id, once,
the block is not one of the replica's own proposals, and verified votes for it are received only after it is
stored.  Then the replica broadcasts the block exactly once. -/
theorem echoed_once (nd : Node) (depth : ℕ) (gs : List Given) (b : Block)
    (hone : inserted b.id (feed nd depth gs).trace = [b]) (hown : .proposed b ∉ (feed nd depth gs).trace)
    (hvotes : VotesFollow nd depth gs b.id) : broadcasts b (feed nd depth gs).sent = 1 :=
  (echoed_feed hvotes hown).2 hone

/-- Node 1's first block. -/
def firstBlock : Block := FourNodes.block 1 .initial

/-- The vote of node 3 for it. -/
def firstVote : Vote := ⟨1, "3", 1, FourNodes.signature 2 1⟩

theorem echoed_once_blockFirst :
    inserted 1 (feed FourNodes.second 9 [.msg (.block firstBlock), .msg (.vote firstVote)]).trace = [firstBlock] ∧
      broadcasts firstBlock
        (feed FourNodes.second 9 [.msg (.block firstBlock), .msg (.vote firstVote)]).sent = 1 := by
  have hone : inserted 1 (feed FourNodes.second 9 [.msg (.block firstBlock), .msg (.vote firstVote)]).trace =
      [firstBlock] := by
    decide_cbv
  refine ⟨hone, echoed_once FourNodes.second 9 _ firstBlock hone (by decide_cbv) ?_⟩
  intro k v hk _ hid
  -- the vote is the second thing the replica is given
  rcases k with _ | _ | k
  · cases hk
  · have : inserted 1 (feed FourNodes.second 9 [.msg (.block firstBlock)]).trace = [firstBlock] := by
      decide_cbv
    exact fun hnil => by cases this.symm.trans hnil
  · cases hk

/-- **A vote silences its block.**  The vote of node 3 comes before the block.  It is passed on, and the block,
which is stored after that, is not. -/
theorem vote_silences_block :
    inserted 1 (feed FourNodes.second 9 [.msg (.vote firstVote), .msg (.block firstBlock)]).trace = [firstBlock] ∧
      .proposed firstBlock ∉ (feed FourNodes.second 9 [.msg (.vote firstVote), .msg (.block firstBlock)]).trace ∧
      broadcasts firstBlock
        (feed FourNodes.second 9 [.msg (.vote firstVote), .msg (.block firstBlock)]).sent = 0 := by
  refine ⟨by decide_cbv, by decide_cbv, by decide_cbv⟩

end Streamlet

end Bamboo
