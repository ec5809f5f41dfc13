import Bamboo.Streamlet.SmallSteps

/-!
# The handlers of Streamlet are made of small steps

Each handler, run from a state that satisfies `Ok`, goes through small steps only, also when it stops with
a fault, and whatever the bound on its calls.  `streamletSteps` puts this in the form in which the network's
runs become runs in small steps.
-/

namespace Bamboo

namespace Streamlet

open Prog

variable {nd : Node} {In : Msg → Prop} {s t : Streamlet}

/-! ### Along a sequence of small steps -/

theorem Acts.subset (h : Relation.ReflTransGen (Act nd In) s t) :
    s.sent ⊆ t.sent ∧ s.trace ⊆ t.trace := by
  induction h with
  | refl => exact ⟨List.Subset.refl _, List.Subset.refl _⟩
  | tail _ h ih => exact ⟨List.Subset.trans ih.1 h.subset.1, List.Subset.trans ih.2 h.subset.2⟩

theorem Heard.acts {m : Msg} (hm : Heard In s m) (h : Relation.ReflTransGen (Act nd In) s t) :
    Heard In t m := hm.mono (fun _ h => h) (Acts.subset h).1

theorem Ok.acts (hok : Ok nd In s) (h : Relation.ReflTransGen (Act nd In) s t) : Ok nd In t := by
  induction h with
  | refl => exact hok
  | tail _ h ih => exact ih.act h

/-! ### Access to the notarized chain -/

/-- The state after some accesses. -/
def looked (s : Streamlet) (es : List Entry) : Streamlet := { s with trace := s.trace ++ es }

theorem looked_looked (s : Streamlet) (es es' : List Entry) :
    looked (looked s es) es' = looked s (es ++ es') := by
  simp [looked]

/-- Accesses inside the bounds. -/
def Within (es : List Entry) : Prop := ∀ e ∈ es, IsIndex e ∧ InRange e

theorem Within.nil : Within [] := fun _ h => by cases h

theorem Within.append {es es' : List Entry} (h : Within es) (h' : Within es') : Within (es ++ es') :=
  fun e he => (List.mem_append.1 he).elim (h e) (h' e)

theorem index_wp {α : Type} {l : List α} {i : ℤ} {Q : α → Streamlet → Prop} {E : Streamlet → Prop}
    (hok : ∀ a, 0 ≤ i → l[i.toNat]? = some a → Q a (looked s [.index i l.length]))
    (herr : E (looked s [.index i l.length])) : wp (index l i) Q E s := by
  unfold index
  refine wp_bind.2 (wp_modify.2 (wp_ite.2 ⟨fun _ => herr, fun hi => ?_⟩))
  cases hl : l[i.toNat]? with
  | none => exact herr
  | some a => exact hok a (by omega) hl

theorem index_eq {α : Type} {l : List α} {i : ℤ} {k : ℕ} {a : α} (hk : i = k) (ha : l[k]? = some a) :
    index l i s = .ok a (looked s [.index i l.length]) := by
  unfold index note
  rw [modify_bind_apply, if_neg (by omega), hk, Int.toNat_natCast, ha]
  rfl

theorem index_eq_error {α : Type} (l : List α) {i : ℤ} (hi : i < 0) :
    index l i s = .error .indexOutOfRange (looked s [.index i l.length]) := by
  unfold index note
  rw [modify_bind_apply, if_pos hi]
  rfl

theorem within_index {α : Type} {l : List α} {i : ℤ} {k : ℕ} {a : α} (hk : i = k) (ha : l[k]? = some a) :
    Within [.index i l.length] := by
  intro e he
  rw [List.mem_singleton.1 he]
  have := (List.getElem?_eq_some_iff.1 ha).1
  exact ⟨trivial, by omega, by omega⟩

theorem votingRule_steps {b : Block} (hb : .accepted b s.notarizedChain ∈ s.trace) :
    Steps (Act nd In) (votingRule b)
      (fun r t => (∃ es, t = looked s es) ∧ (r = true → MayVote s.notarizedChain b)) s := by
  unfold votingRule
  refine .get_bind (.ite (fun h2 => .pure ⟨⟨[], by simp [looked]⟩, fun _ => Or.inl h2⟩) fun h2 => ?_)
  refine .single (wp_bind.2 (index_wp (fun l h0 hl => ⟨.lookLast hb (by omega), ⟨_, rfl⟩, fun hr => ?_⟩)
    (.lookLast hb (by omega))))
  -- the level that was read is the last one
  have hlast : s.notarizedChain.getLast? = some l := by
    rw [List.getLast?_eq_getElem?, ← hl]
    congr 1
    omega
  obtain ⟨x, hx, hid⟩ := List.any_eq_true.1 hr
  exact Or.inr ⟨l, hlast, x, hx, of_decide_eq_true hid⟩

theorem exists_last_three {α : Type} {chain : List α} (h3 : 3 ≤ chain.length) :
    ∃ before x g l, chain = before ++ [x, g, l] := by
  have hdrop : (chain.drop (chain.length - 3)).length = 3 := by
    rw [List.length_drop]
    omega
  obtain ⟨x, g, l, h⟩ := List.length_eq_three.1 hdrop
  exact ⟨chain.take (chain.length - 3), x, g, l, by rw [← h, List.take_append_drop]⟩

/-- The last three levels of the chain are blocks of consecutive views. -/
def Rule (chain : List (List Block)) (g : Block) : Prop :=
  ∃ before x l, chain = before ++ [[x], [g], [l]] ∧ x.view + 1 = g.view ∧ g.view + 1 = l.view

theorem Rule.last_three {before : List (List Block)} {L G X : List Block} {b : Block}
    (h : Rule (before ++ [X, G, L]) b) :
    ∃ x l, X = [x] ∧ G = [b] ∧ L = [l] ∧ x.view + 1 = b.view ∧ b.view + 1 = l.view := by
  obtain ⟨before', x, l, hch, hv⟩ := h
  have hlast := List.append_inj_right' hch rfl
  simp only [List.cons.injEq, and_true] at hlast
  exact ⟨x, l, hlast.1, hlast.2.1, hlast.2.2, hv⟩

/-- `commitRule` reads a level, and goes on with its block if it has one only. -/
theorem level_cases {chain : List (List Block)} {i : ℤ} {k : ℕ} {L : List Block} (hk : i = k)
    (hL : chain[k]? = some L) :
    (∃ x, L = [x] ∧ Within [.index i chain.length, .index 0 1] ∧
      ∀ (f : Block → Go Streamlet (Option Block)) (s : Streamlet),
        (do
          let l ← index chain i
          if l.length ≠ 1 then return none
          f (← index l 0)) s = f x (looked s [.index i chain.length, .index 0 1])) ∨
    (∀ x, L ≠ [x]) ∧ Within [.index i chain.length] ∧
      ∀ (f : Block → Go Streamlet (Option Block)) (s : Streamlet),
        (do
          let l ← index chain i
          if l.length ≠ 1 then return none
          f (← index l 0)) s = .ok none (looked s [.index i chain.length]) := by
  have hlevel := within_index hk hL
  by_cases h1 : L.length ≠ 1
  · refine Or.inr ⟨fun x hx => h1 (by rw [hx]; rfl), hlevel, fun f s => ?_⟩
    rw [bind_apply_ok (index_eq hk hL), if_pos h1]
    rfl
  · obtain ⟨x, rfl⟩ := List.length_eq_one_iff.1 (not_not.1 h1)
    have hzero : (0 : ℤ) = (0 : ℕ) := rfl
    refine Or.inl ⟨x, rfl, hlevel.append (within_index (l := [x]) (a := x) hzero rfl), fun f s => ?_⟩
    rw [bind_apply_ok (index_eq hk hL), if_neg h1, bind_apply_ok (index_eq (l := [x]) (a := x) hzero rfl),
      looked_looked]
    rfl

/-- `commitRule` reads the last three levels and finds the block to commit. -/
theorem commitRule_eq (s : Streamlet) :
    ∃ r es, commitRule s = .ok r (looked s es) ∧ Within es ∧ ∀ g, r = some g ↔ Rule s.notarizedChain g := by
  by_cases h3 : s.notarizedChain.length < 3
  · refine ⟨none, [], ?_, Within.nil, fun g => ⟨fun h => (by cases h), ?_⟩⟩
    · unfold commitRule
      rw [get_bind_apply, if_pos h3, looked, List.append_nil]
      rfl
    · rintro ⟨before, x, l, hch, -⟩
      simp only [hch, List.length_append, List.length_cons, List.length_nil] at h3
      omega
  obtain ⟨before, X, G, L, hch⟩ := exists_last_three (show 3 ≤ s.notarizedChain.length by omega)
  have hlen : s.notarizedChain.length = before.length + 3 := by simp [hch]
  have hl : s.notarizedChain[before.length + 2]? = some L := by simp [hch]
  have hg : s.notarizedChain[before.length + 1]? = some G := by simp [hch]
  have hx : s.notarizedChain[before.length]? = some X := by simp [hch]
  have hkl : (s.notarizedChain.length : ℤ) - 1 = (before.length + 2 : ℕ) := by omega
  have hkg : (s.notarizedChain.length : ℤ) - 2 = (before.length + 1 : ℕ) := by omega
  have hkx : (s.notarizedChain.length : ℤ) - 3 = (before.length : ℕ) := by omega
  have hlast : ∀ {g}, Rule s.notarizedChain g →
      ∃ x l, X = [x] ∧ G = [g] ∧ L = [l] ∧ x.view + 1 = g.view ∧ g.view + 1 = l.view :=
    fun hr => (hch ▸ hr).last_three
  unfold commitRule
  rw [get_bind_apply, if_neg h3]
  -- a level that does not have one block ends the search
  rcases level_cases hkl hl with ⟨l, rfl, hwl, hrl⟩ | ⟨hno, hwl, hrl⟩
  swap
  · refine ⟨none, _, hrl _ s, hwl, fun g => ⟨fun h => (by cases h), fun hr => ?_⟩⟩
    obtain ⟨x, l, -, -, rfl, -⟩ := hlast hr
    exact absurd rfl (hno l)
  rw [hrl]
  rcases level_cases hkg hg with ⟨g, rfl, hwg, hrg⟩ | ⟨hno, hwg, hrg⟩
  swap
  · refine ⟨none, _, ?_, hwl.append hwg, fun g => ⟨fun h => (by cases h), fun hr => ?_⟩⟩
    · rw [hrg, looked_looked]
    · obtain ⟨x, l, -, rfl, -⟩ := hlast hr
      exact absurd rfl (hno _)
  rw [hrg, looked_looked]
  rcases level_cases hkx hx with ⟨x, rfl, hwx, hrx⟩ | ⟨hno, hwx, hrx⟩
  swap
  · refine ⟨none, _, ?_, (hwl.append hwg).append hwx, fun g => ⟨fun h => (by cases h), fun hr => ?_⟩⟩
    · rw [hrx, looked_looked]
    · obtain ⟨x, l, rfl, -⟩ := hlast hr
      exact absurd rfl (hno x)
  rw [hrx, looked_looked]
  refine ⟨if x.view + 1 = g.view ∧ g.view + 1 = l.view then some g else none, _, ?_,
    (hwl.append hwg).append hwx, fun g' => ⟨fun hr => ?_, fun hr => ?_⟩⟩
  · split_ifs <;> rfl
  · split_ifs at hr with hv
    cases hr
    exact ⟨before, x, l, hch, hv.1, hv.2⟩
  · obtain ⟨x', l', hx', hg', hl', hv⟩ := hlast hr
    cases hx'
    cases hg'
    cases hl'
    rw [if_pos hv]

/-- Accesses to the levels of a chain of this height. -/
def Reads (height : ℕ) (es : List Entry) : Prop := ∀ e ∈ es, ∃ i : ℕ, i < height ∧ e = .index i height

theorem Reads.nil (height : ℕ) : Reads height [] := fun _ h => by cases h

theorem Reads.within {height : ℕ} {es : List Entry} (h : Reads height es) : Within es := by
  intro e he
  obtain ⟨i, hi, rfl⟩ := h e he
  exact ⟨trivial, by omega, by omega⟩

/-- The search for the parent, from level `k - 1` down.  If none of these levels has it, the height decides:
from three levels on the search ends at the first one, and otherwise it goes on below. -/
theorem findParent_eq {chain : List (List Block)} {k : ℕ} (hk : k ≤ chain.length) (prevID : ℕ) (s : Streamlet) :
    ∃ es, Reads chain.length es ∧ findParent chain prevID k s =
      if InChain (chain.take k) prevID then .ok true (looked s es)
      else if 3 ≤ chain.length then .ok false (looked s es)
      else .error .indexOutOfRange (looked s (es ++ [.index (-1) chain.length])) := by
  induction k generalizing s with
  | zero =>
    refine ⟨[], Reads.nil _, ?_⟩
    have hnot : ¬InChain (chain.take 0) prevID := by simp [InChain]
    unfold findParent
    rw [if_neg hnot]
    by_cases h3 : 3 ≤ chain.length
    · rw [if_neg (by omega), if_pos h3, looked, List.append_nil]
      rfl
    · rw [if_pos (by omega), if_neg h3]
      exact bind_apply_error (index_eq_error chain (by decide))
  | succ k ih =>
    obtain ⟨l, hl⟩ : ∃ l, chain[k]? = some l := ⟨chain[k], List.getElem?_eq_getElem (by omega)⟩
    have htake : chain.take (k + 1) = chain.take k ++ [l] := by
      rw [List.take_add_one, hl]
      rfl
    have hread : Reads chain.length [.index k chain.length] :=
      fun e he => ⟨k, by omega, List.mem_singleton.1 he⟩
    unfold findParent
    simp only [bind_apply_ok (index_eq rfl hl), htake, inChain_concat]
    by_cases hany : l.any (fun b => decide (b.id = prevID)) = true
    · refine ⟨_, hread, ?_⟩
      rw [if_pos hany, if_pos (Or.inr (by simpa using hany))]
      rfl
    · have hnone : ¬∃ b ∈ l, b.id = prevID := by simpa using hany
      obtain ⟨es, hes, heq⟩ := ih (by omega) (looked s [.index k chain.length])
      refine ⟨[.index k chain.length] ++ es, fun e he => ?_, ?_⟩
      · exact (List.mem_append.1 he).elim (hread e) (hes e)
      · simp only [if_neg hany, heq, or_iff_left hnone, looked_looked, List.append_assoc]

/-- `updateNotarizedChain` for the certificate of a stored block. -/
theorem updateNotarizedChain_eq {qc : QC} {b : Block} (hst : s.bc.getBlockByID qc.blockID = some b) :
    ∃ es, Reads s.notarizedChain.length es ∧ updateNotarizedChain qc s =
      if s.notarizedChain = [] ∨ InChain s.notarizedChain b.prevID then
        .ok true { looked s ([.notarizing b s.notarizedChain] ++ es) with
          notarizedChain := s.notarizedChain ++ [[b]] }
      else if 3 ≤ s.notarizedChain.length then
        .ok false { looked s ([.notarizing b s.notarizedChain] ++ es) with
          bufferedNotarizedBlock := s.bufferedNotarizedBlock.insert b.prevID qc }
      else .error .indexOutOfRange
        (looked s ([.notarizing b s.notarizedChain] ++ es ++ [.index (-1) s.notarizedChain.length])) := by
  unfold updateNotarizedChain
  simp only [get_bind_apply, hst, note, modify_bind_apply]
  by_cases hnil : s.notarizedChain = []
  · -- the first block needs no parent
    refine ⟨[], Reads.nil _, ?_⟩
    rw [if_pos (by simp [hnil]), if_pos (Or.inl hnil)]
    rfl
  obtain ⟨es, hes, heq⟩ := findParent_eq (Nat.le_refl s.notarizedChain.length) b.prevID
    (looked s [.notarizing b s.notarizedChain])
  rw [List.take_length, looked_looked, looked_looked] at heq
  refine ⟨es, hes, ?_⟩
  simp only [if_neg (mt List.length_eq_zero_iff.1 hnil), or_iff_right hnil, List.append_assoc]
  by_cases hpar : InChain s.notarizedChain b.prevID
  · rw [if_pos hpar] at heq ⊢
    exact bind_apply_ok heq
  rw [if_neg hpar] at heq ⊢
  by_cases h3 : 3 ≤ s.notarizedChain.length
  · rw [if_pos h3] at heq ⊢
    exact bind_apply_ok heq
  · rw [if_neg h3] at heq ⊢
    exact bind_apply_error heq

/-! ### Certificates and votes -/

theorem tryCommit_steps (hok : Ok nd In s) : Steps (Act nd In) tryCommit (fun _ _ => True) s := by
  unfold tryCommit
  obtain ⟨r, es, hr, hes, hg⟩ := commitRule_eq s
  refine .step_bind hr (.look hes) ?_
  cases r with
  | none => exact .pure trivial
  | some g =>
    obtain ⟨before, x, l, hch, hx, hl⟩ := (hg g).1 rfl
    have hok' : Ok nd In (looked s es) := hok.act (.look hes)
    refine .get_bind (.single (wp_bind.2 (wp_zoom.2
      (wp_mono (BlockChain.commitBlock_spec hok'.forrest _ _) ?_ ?_))))
    · intro r bc hc
      cases r with
      | none => exact ⟨.commitFailed ⟨hc.failed rfl, hc.wf, hc.has, hc.total⟩, trivial⟩
      | some res => exact ⟨.commit hch hx hl hc, trivial⟩
    · intro bc hd
      exact .commitFailed hd

/-- The block is found and added to the chain, and the next view is entered. -/
theorem certify_steps (hok : Ok nd In s) {qc : QC} (hk : Known s qc) :
    Steps (Act nd In) (certify nd qc) (fun _ _ => True) s := by
  unfold certify
  refine .get_bind (.ite (fun _ => .pure trivial) fun hcur => .ite (fun _ => ?_) fun _ => ?_)
  · exact .step_bind rfl (.bufferQC hk) (.pure trivial)
  refine .ofExcept_bind fun ok _ => .ite (fun _ => .pure trivial) fun _ => ?_
  refine wp_bind.2 ?_
  cases hb : s.bc.getBlockByID qc.blockID with
  | none =>
    have hmissing : updateNotarizedChain qc s = .ok false s := by
      unfold updateNotarizedChain
      rw [get_bind_apply, hb]
      rfl
    exact wp_of_ok hmissing ⟨.refl, trivial⟩
  | some b =>
    obtain ⟨es, hes, heq⟩ := updateNotarizedChain_eq hb
    -- the block is found and the levels are read
    have hst : Relation.ReflTransGen (Act nd In) s (looked s ([.notarizing b s.notarizedChain] ++ es)) := by
      rw [← looked_looked]
      exact (Relation.ReflTransGen.single (.found hk hb)).tail (.look hes.within)
    have hkept : Known (looked s ([.notarizing b s.notarizedChain] ++ es)) qc := List.mem_append_left _ hk
    by_cases hpar : s.notarizedChain = [] ∨ InChain s.notarizedChain b.prevID
    · rw [if_pos hpar] at heq
      have ha : Act nd In (looked s ([.notarizing b s.notarizedChain] ++ es)) _ :=
        .notarize hkept hb (by simpa [looked] using hcur) hpar
      refine wp_of_ok heq (wp_ite.2 ⟨fun h => (by cases h), fun _ => ?_⟩)
      refine wp_bind.2 (wp_modify.2 (wp_ite.2 ⟨fun _ => ⟨hst.tail ha, trivial⟩, fun _ => ?_⟩))
      refine wp_mono (tryCommit_steps ((hok.acts hst).act ha)) (fun _ u hu => ⟨?_, trivial⟩) fun u hu => ?_
      · exact (hst.tail ha).trans hu.1
      · exact (hst.tail ha).trans hu
    rw [if_neg hpar] at heq
    obtain ⟨hne, hno⟩ := not_or.1 hpar
    by_cases h3 : 3 ≤ s.notarizedChain.length
    · rw [if_pos h3] at heq
      exact wp_of_ok heq ⟨hst.tail (.bufferNotarized hkept b.prevID), trivial⟩
    · rw [if_neg h3, ← looked_looked] at heq
      refine wp_of_error heq (hst.tail (.lookBelow ?_ hne (by simpa [looked] using h3) hno))
      simp [looked]

theorem echo_steps {m : Msg} (hm : Heard In s m ∨ ∃ v, m = .vote v ∧ OwnVote nd s v)
    (ht : ∀ tmo, m ≠ .tmo tmo) (id : ℕ) :
    Steps (Act nd In) (echo id m) (fun _ t => t.pm = s.pm ∧ t.bc = s.bc) s := by
  unfold echo
  exact .get_bind (.ite (fun _ => .single (wp_set.2 ⟨.echo hm ht, rfl, rfl⟩)) fun _ => .pure ⟨rfl, rfl⟩)

theorem recordVote_steps (hok : Ok nd In s) {v : Vote} (hv : Heard In s (.vote v) ∨ OwnVote nd s v) :
    Steps (Act nd In) (recordVote nd v) (fun r t => ∀ qc, r = some qc → Known t qc) s := by
  unfold recordVote
  refine .ofExcept_bind fun ok hcheck => .ite (fun _ => .pure fun qc h => (by cases h)) fun hq => ?_
  have hver := verified_of_checkVote (show checkVote nd v = .ok true by simpa [hq] using hcheck)
  have hecho : Steps (Act nd In) (echo v.blockID (.vote v)) (fun _ t => t.pm = s.pm ∧ t.bc = s.bc) s :=
    echo_steps (hv.imp_right fun h => ⟨v, rfl, h⟩) (fun _ h => by cases h) v.blockID
  refine hecho.bind fun _ t hst _ => .get_bind ?_
  have hv' : Heard In t (.vote v) ∨ OwnVote nd t v :=
    hv.imp (fun h => h.acts hst) fun h => h.mono (Acts.subset hst).2
  have hc : Counts nd In t v := ⟨hv', hver⟩
  rcases BlockChain.addVote_cases nd.toConfig (hok.acts hst).quorum v with h | h | ⟨qc, h, hcert⟩
  · rw [h]
    exact ⟨.refl, fun qc h => (by cases h)⟩
  · rw [h]
    exact .step_bind rfl (.count hc) (.pure fun qc h => (by cases h))
  · rw [h]
    refine .single (wp_bind.2 (wp_set.2 (wp_bind.2 (wp_modify.2 ⟨.build hc hcert, fun qc' hq' => ?_⟩))))
    cases hq'
    exact List.mem_append_right _ (List.mem_singleton_self _)

/-! ### Blocks -/

theorem vetBlock_steps {b : Block} (hblk : Heard In s (.block b)) :
    Steps (Act nd In) (vetBlock nd b) (fun r t => r = none → Admitted nd In t b) s := by
  unfold vetBlock
  refine .get_bind (.ite (fun _ => .pure fun h => (by cases h)) fun _ => .ite
    (fun _ => .pure fun h => (by cases h)) fun hcur => .ite (fun _ => ?_) fun hpar => .ite
    (fun _ => .pure fun h => (by cases h)) fun hlead => .ofExcept_bind fun _ _ => ?_)
  · exact .step_bind rfl (.bufferBlock hblk) (.pure fun h => (by cases h))
  have hadm : Admitted nd In s b :=
    ⟨hblk, by omega, fun h1 hn => hpar ⟨hn, h1⟩, by simpa using hlead⟩
  refine (echo_steps (Or.inl hblk) (fun _ h => by cases h) b.id).bind fun _ t hst ht => .pure fun _ => ?_
  exact ⟨hblk.acts hst, ht.1 ▸ hadm.lower, ht.2 ▸ hadm.parent, hadm.leader⟩

theorem insertBlock_steps (hok : Ok nd In s) {b : Block} (hadm : Admitted nd In s b) :
    Steps (Act nd In) (insertBlock b)
      (fun r t => r = true → Heard In t (.block b) ∧ t.pm.curView ≤ b.view ∧ MayVote t.notarizedChain b)
      s := by
  unfold insertBlock
  refine .get_bind ?_
  rw [← bind_assoc]
  refine .bind (Q := fun _ t => t.notarizedChain = s.notarizedChain ∧ t.pm = s.pm ∧
    .accepted b t.notarizedChain ∈ t.trace) (.single ?_) ?_
  · refine wp_bind.2 (wp_modify.2 (wp_zoom.2 (wp_zoom.2 (wp_mono
      (LevelledForest.addVertex_spec hok.forrest b) ?_ ?_))))
    · intro _ f hf
      exact ⟨.accept hadm hf, rfl, rfl, List.mem_append_right _ (List.mem_singleton_self _)⟩
    · intro f hf
      exact .accept hadm hf
  rintro _ t hst ⟨hchain, hpm, hacc⟩
  refine (votingRule_steps hacc).bind ?_
  rintro r _ htu ⟨⟨es, rfl⟩, hr⟩
  have hblk : Heard In (looked t es) (.block b) := (hadm.heard.acts hst).acts htu
  cases r with
  | true => exact .pure fun _ => ⟨hblk, by simpa [looked, hpm] using hadm.lower, hr rfl⟩
  | false => exact .step_bind rfl (.bufferBlock hblk) (.pure fun h => (by cases h))

/-- The three functions that call each other, by induction on the depth of the calls. -/
theorem process_steps (nd : Node) (In : Msg → Prop) (depth : ℕ) :
    (∀ {s : Streamlet} {b : Block}, Ok nd In s → Heard In s (.block b) →
      Steps (Act nd In) (processBlock nd depth b) (fun _ _ => True) s) ∧
    (∀ {s : Streamlet} {v : Vote}, Ok nd In s → Heard In s (.vote v) ∨ OwnVote nd s v →
      Steps (Act nd In) (processVote nd depth v) (fun _ _ => True) s) ∧
    ∀ {s : Streamlet} {qc : QC}, Ok nd In s → Known s qc →
      Steps (Act nd In) (processCertificate nd depth qc) (fun _ _ => True) s := by
  induction depth with
  | zero => exact ⟨fun _ _ => .throw, fun _ _ => .throw, fun _ _ => .throw⟩
  | succ depth ih =>
    obtain ⟨ihb, ihv, ihq⟩ := ih
    refine ⟨fun {s b} hok hblk => ?_, fun {s v} hok hv => ?_, fun {s qc} hok hk => ?_⟩
    · unfold processBlock
      refine (vetBlock_steps hblk).bind fun r t hst hr => ?_
      cases r with
      | some err => exact .pure trivial
      | none =>
        refine (insertBlock_steps (hok.acts hst) (hr rfl)).bind fun r u htu hu => ?_
        have hoku := (hok.acts hst).acts htu
        cases r with
        | false => exact .pure trivial
        | true =>
          obtain ⟨hheard, hcur, hmay⟩ := hu rfl
          refine .ite (fun h => (by cases h)) fun _ => .ofExcept_bind fun v hv => .get_bind ?_
          have ha : Act nd In u _ := .vote hheard hcur hmay
          refine .step_bind rfl ha ?_
          have hown : OwnVote nd { u with trace := u.trace ++ [.voted b u.pm.curView u.notarizedChain] } v :=
            ⟨b, _, _, List.mem_append_right _ (List.mem_singleton_self _), hv⟩
          refine (ihv (hoku.act ha) (Or.inr hown)).bind fun _ x hux _ => ?_
          have hsend : Act nd In x _ := .sendVote (hown.mono (Acts.subset hux).2)
          have hokx := ((hoku.act ha).acts hux).act hsend
          refine .step_bind rfl hsend (.get_bind (.bind (Q := fun _ _ => True) ?_ ?_))
          · cases hl : x.bufferedQCs.lookup b.id with
            | none =>
              simp only [send, hl]
              exact .pure trivial
            | some qc =>
              simp only [send, hl]
              exact ihq hokx (hokx.bufferedQC _ _ hl)
          intro _ y hxy _
          have hoky := hokx.acts hxy
          refine .get_bind (.bind (Q := fun _ _ => True) ?_ fun _ _ _ _ => .pure trivial)
          cases hl : y.bufferedBlocks.lookup b.id with
          | none => exact .pure trivial
          | some b' => exact (ihb hoky (hoky.bufferedBlock _ _ hl)).bind fun _ _ _ _ => .pure trivial
    · unfold processVote
      refine (recordVote_steps hok hv).bind fun r t hst hr => ?_
      cases r with
      | none => exact .pure trivial
      | some qc => exact ihq (hok.acts hst) (hr qc rfl)
    · unfold processCertificate
      refine (certify_steps hok hk).bind fun r t hst _ => ?_
      have hokt := hok.acts hst
      cases r with
      | false => exact .pure trivial
      | true =>
        refine .ite (fun h => (by cases h)) fun _ => .get_bind (.bind (Q := fun _ _ => True) ?_ ?_)
        · cases hl : t.bufferedBlocks.lookup qc.blockID with
          | none => exact .pure trivial
          | some b =>
            refine (ihb hokt (hokt.bufferedBlock _ _ hl)).bind fun _ _ _ _ => ?_
            exact .single ⟨.dropBlock qc.blockID, trivial⟩
        intro _ u htu _
        have hoku := hokt.acts htu
        refine .get_bind ?_
        cases hl : u.bufferedNotarizedBlock.lookup qc.blockID with
        | none => exact .pure trivial
        | some qc' =>
          refine (ihq hoku (hoku.bufferedNotarized _ _ hl)).bind fun _ _ _ _ => ?_
          exact .single ⟨.dropQC qc'.blockID, trivial⟩

/-! ### Timeouts and view events -/

theorem processRemoteTmo_eq (s : Streamlet) (m : TMO) : processRemoteTmo m s = .ok () (tmoState s m) := by
  unfold processRemoteTmo tmoState
  rw [get_bind_apply]
  obtain ⟨tcl, hpm, htc⟩ := s.pm.processRemoteTmo_cases m
  generalize s.pm.processRemoteTmo m = r at hpm htc ⊢
  obtain ⟨tc, pm⟩ := r
  dsimp only at hpm htc ⊢
  subst hpm
  rw [set_bind_apply]
  cases tc with
  | none => simp; rfl
  | some tc =>
    obtain ⟨hv, hcur⟩ := htc tc rfl
    unfold processTC
    dsimp only
    rw [get_bind_apply, if_neg (by dsimp only; omega)]
    rfl

theorem processRemoteTmo_steps {m : TMO} (hm : Heard In s (.tmo m)) :
    Steps (Act nd In) (processRemoteTmo m) (fun _ _ => True) s := by
  exact .single (wp_of_ok (processRemoteTmo_eq ..) ⟨.timeout hm, trivial⟩)

theorem processLocalTmo_steps :
    Steps (Act nd In) (processLocalTmo nd s.pm.curView) (fun _ _ => True) s := by
  unfold processLocalTmo
  have ha : Act nd In s (send ⟨none, .tmo ⟨s.pm.curView, nd.id, none⟩⟩ s) := .sendTmo rfl rfl
  refine .step_bind rfl ha (processRemoteTmo_steps (Or.inr ?_))
  exact ⟨_, List.mem_append_right _ (List.mem_singleton.2 rfl), rfl⟩

/-- `forkChoice` reads the tail of the chain. -/
theorem forkChoice_eq (nd : Node) (h1 : ∀ l ∈ s.notarizedChain, ∃ b, l = [b]) :
    ∃ es, forkChoice nd s = .ok (tailID nd s) (looked s es) ∧ Within es := by
  unfold forkChoice tailID
  cases hl : s.notarizedChain.getLast? with
  | none =>
    have hnil := List.getLast?_eq_none_iff.1 hl
    refine ⟨[], ?_, Within.nil⟩
    rw [get_bind_apply, if_pos (by rw [hnil]; rfl), looked, List.append_nil]
    rfl
  | some l =>
    obtain ⟨b, rfl⟩ := h1 l (List.mem_of_getLast? hl)
    have hne : s.notarizedChain ≠ [] := by
      rintro he
      rw [he] at hl
      cases hl
    have hpos := List.length_pos_iff.2 hne
    rw [List.getLast?_eq_getElem?] at hl
    have hk : (s.notarizedChain.length : ℤ) - 1 = (s.notarizedChain.length - 1 : ℕ) := by omega
    have hzero : (0 : ℤ) = (0 : ℕ) := rfl
    refine ⟨_, ?_, (within_index hk hl).append (within_index (l := [b]) (a := b) hzero rfl)⟩
    rw [get_bind_apply, if_neg (by omega), bind_apply_ok (index_eq hk hl),
      bind_apply_ok (index_eq (l := [b]) (a := b) hzero rfl), looked_looked]
    rfl

theorem makeProposals_wp (hok : Ok nd In s) (view : ℤ) (payload : List Transaction) (pBatch : PBatch) :
    wp (if 1 < view then makePProposal nd view pBatch else makeProposal nd view payload)
      (fun b t => ∃ es, Within es ∧ t = looked s (es ++ [.proposed b]) ∧ Proposal nd s view b)
      (fun t => ∃ es, Within es ∧ t = looked s es) s := by
  obtain ⟨es, hf, hes⟩ := forkChoice_eq nd hok.levels
  have hfork : wp (forkChoice nd) (fun id t => id = tailID nd s ∧ t = looked s es) (fun _ => False) s :=
    wp_of_ok hf ⟨rfl, rfl⟩
  refine wp_ite.2 ⟨fun _ => ?_, fun _ => ?_⟩
  · unfold makePProposal
    refine wp_bind.2 (wp_mono hfork ?_ fun _ h => h.elim)
    rintro _ _ ⟨rfl, rfl⟩
    refine wp_bind.2 (wp_ofExcept.2 ⟨fun b h => ?_, fun _ _ => ⟨es, hes, rfl⟩⟩)
    obtain ⟨h₁, -, h₃, h₄⟩ := makePBlock_eq_ok h
    exact wp_bind.2 (wp_modify.2 ⟨es, hes, looked_looked _ _ _, h₁, h₃, h₄⟩)
  · unfold makeProposal
    refine wp_bind.2 (wp_mono hfork ?_ fun _ h => h.elim)
    rintro _ _ ⟨rfl, rfl⟩
    refine wp_bind.2 (wp_ofExcept.2 ⟨fun b h => ?_, fun _ _ => ⟨es, hes, rfl⟩⟩)
    obtain ⟨h₁, -, h₃, h₄⟩ := makeBlock_eq_ok h
    exact wp_bind.2 (wp_modify.2 ⟨es, hes, looked_looked _ _ _, h₁, h₃, h₄⟩)

theorem processBlock_steps (hok : Ok nd In s) {depth : ℕ} {b : Block} (hblk : Heard In s (.block b)) :
    Steps (Act nd In) ((safety nd depth).processBlock b) (fun _ _ => True) s :=
  .bind ((process_steps nd In depth).1 hok hblk) fun _ _ _ _ => .pure trivial

theorem processNewView_steps (hok : Ok nd In s) (depth : ℕ) (payload : List Transaction)
    (pBatch : PBatch) :
    Steps (Act nd In) ((safety nd depth).processNewView nd payload pBatch) (fun _ _ => True) s := by
  unfold Safety.processNewView
  refine .get_bind ?_
  cases hq : s.pm.newViewChan with
  | nil =>
    simp only [safety, hq]
    exact .pure trivial
  | cons v rest =>
    simp only [safety, hq]
    have hpop : Act nd In s { s with pm := { s.pm with newViewChan := rest } } := .pop hq
    by_cases hl : nd.elec.isLeader nd.id v = false
    · rw [if_pos hl]
      exact .step_bind rfl hpop (.pure trivial)
    rw [if_neg hl]
    unfold Safety.proposeBlock
    refine wp_bind.2 (wp_set.2 (wp_bind.2 (wp_mono (makeProposals_wp (hok.act hpop) v payload pBatch) ?_ ?_)))
    · rintro b _ ⟨es, hes, rfl, hprop⟩
      have hprop' : Proposal nd s v b := ⟨hprop.view, hprop.proposer, hprop.prevID⟩
      have ha : Act nd In s _ := .propose hq (by simpa using hl) hprop' hes
      refine wp_bind.2 (wp_modify.2 (Steps.after ha (processBlock_steps (hok.act ha) (Or.inr ?_))))
      exact ⟨_, List.mem_append_right _ (List.mem_singleton.2 rfl), rfl⟩
    · rintro _ ⟨es, hes, rfl⟩
      exact .head hpop (.single (.look hes))

/-- **Every event of a replica is a sequence of small steps.** -/
theorem handleEvent_steps (hok : Ok nd In s) (depth : ℕ) (e : Event) :
    Steps (Act nd In) (handleEvent nd depth e) (fun _ _ => True) s := by
  cases e with
  | replica e =>
    cases e with
    | txn =>
      show Steps (Act nd In) ((safety nd depth).handleTxn nd) _ s
      unfold Safety.handleTxn
      refine .get_bind (.ite (fun h => ?_) fun _ => .pure trivial)
      exact .single ⟨.kickOff h.1, trivial⟩
    | newView payload pBatch => exact processNewView_steps hok depth payload pBatch
    | timer => exact .get_bind processLocalTmo_steps
  | task k =>
    show Steps (Act nd In) (runPending k) _ s
    unfold runPending
    refine .get_bind ?_
    cases hk : s.pending[k]? with
    | none => exact .pure trivial
    | some view => exact .single ⟨.advance hk, trivial⟩

/-- **So is the handling of every message.** -/
theorem handleMsg_steps (hok : Ok nd In s) (depth : ℕ) {m : Msg} (hm : In m) :
    Steps (Act nd In) ((safety nd depth).handleMsg m) (fun _ _ => True) s := by
  cases m with
  | block b => exact processBlock_steps hok (Or.inl hm)
  | vote v => exact (process_steps nd In depth).2.1 hok (Or.inl (Or.inl hm))
  | tmo t => exact processRemoteTmo_steps (Or.inl hm)

/-- More messages allow no fewer steps. -/
theorem Act.mono {In' : Msg → Prop} (h : Act nd In s t) (hI : ∀ m, In m → In' m) : Act nd In' s t := by
  have hH : ∀ m, Heard In s m → Heard In' s m := fun m hm => hm.mono hI (List.Subset.refl _)
  have hC : ∀ v, Counts nd In s v → Counts nd In' s v := fun v hv => ⟨hv.1.imp_left (hH _), hv.2⟩
  cases h with
  | advance h => exact .advance h
  | kickOff h => exact .kickOff h
  | timeout ht => exact .timeout (hH _ ht)
  | sendTmo hv hi => exact .sendTmo hv hi
  | pop h => exact .pop h
  | propose h hl hb hes => exact .propose h hl hb hes
  | look hes => exact .look hes
  | lookLast hb h2 => exact .lookLast hb h2
  | lookBelow hb hne h3 hno => exact .lookBelow hb hne h3 hno
  | bufferBlock hb => exact .bufferBlock (hH _ hb)
  | dropBlock id => exact .dropBlock id
  | bufferQC hk => exact .bufferQC hk
  | dropQC id => exact .dropQC id
  | bufferNotarized hk id => exact .bufferNotarized hk id
  | echo hm ht => exact .echo (hm.imp_left (hH _)) ht
  | accept hb hf => exact .accept ⟨hH _ hb.heard, hb.lower, hb.parent, hb.leader⟩ hf
  | vote hb hcur hr => exact .vote (hH _ hb) hcur hr
  | sendVote hv => exact .sendVote hv
  | count hv => exact .count (hC _ hv)
  | build hv hc => exact .build (hC _ hv) hc
  | found hk hb => exact .found hk hb
  | notarize hk hb hcur hp => exact .notarize hk hb hcur hp
  | commit hch hx hg hc => exact .commit hch hx hg hc
  | commitFailed hd => exact .commitFailed hd

end Streamlet

/-- The network of Streamlet replicas in small steps. -/
def streamletSteps (cf : Config) (members : List NodeID) (depth : ℕ) :
    Net.SmallSteps (streamletNet cf members depth) where
  step := fun i In => Streamlet.Act (cf.honest i) In
  Ok := fun i In => Streamlet.Ok (cf.honest i) In
  step_mono := fun hI h => h.mono hI
  ok_mono := fun hI h => h.mono hI
  outbox_subset := fun h => h.subset.1
  ok_init := fun i In => Streamlet.ok_new (cf.honest i) In
  ok_step := fun hok h => hok.act h
  receive := fun hok hm => (Streamlet.handleMsg_steps hok depth hm).final
  trigger := fun hok _ => (Streamlet.handleEvent_steps hok depth _).final

end Bamboo
