import Bamboo.HotStuff.Buffers
import Bamboo.Lib.Descent
import Bamboo.Tchs.Buffers

/-!
# Draining the buffered blocks

After its vote for a block, `ProcessBlock` goes on with the block that waits under the view of the first.  HotStuff
deletes the entry when the call returns, and two-chain HotStuff never.

* `NestedCalls`: what the calls of both protocols have in common, a nested call on a block of the next view and with the
  same buffer; `NestedCalls.calls_spec`: what follows for all of them;
* `HotStuff.next`, `Tchs.next`: the nested call that a call of `ProcessBlock` makes, if it makes one;
* `processBlockN_congr`: a call depends on the nested one only;
* `draining_ends`: **the calls are on blocks of increasing views, and there is at most one more of them than
  buffered blocks**.
-/

namespace Bamboo

open Prog Descent

theorem length_keys {κ ν : Type} (m : GoMap κ ν) : m.keys.length = m.entries.length := by
  rw [AList.keys, List.keys, List.length_map]

/-- Nested calls that go through a buffer of blocks: from a call `x` that is `Sound`, the next one is on the block that
waits under the view of `x`, and the buffer stays as it is. -/
structure NestedCalls {α : Type} (next : α → Option α) (view : α → ℤ) (keys : α → List ℤ) (Sound : α → Prop) : Prop where
  sound : ∀ {x y}, Sound x → next x = some y → Sound y
  next_view : ∀ {x y}, Sound x → next x = some y → view y = view x + 1
  waits : ∀ {x y}, Sound x → next x = some y → view x ∈ keys x
  same : ∀ {x y}, Sound x → next x = some y → keys y = keys x

/-- The views of the calls increase, and there is at most one more of them than waiting blocks. -/
theorem NestedCalls.calls_spec {α : Type} {next : α → Option α} {view : α → ℤ} {keys : α → List ℤ} {Sound : α → Prop}
    (h : NestedCalls next view keys Sound) {x : α} (hx : Sound x) (n : ℕ) :
    ((calls next n x).Pairwise fun y z => view y < view z) ∧ (calls next n x).length ≤ (keys x).length + 1 := by
  have hstep : ∀ y z, Sound y ∧ keys y = keys x → next y = some z →
      (Sound z ∧ keys z = keys x) ∧ view y < view z := by
    rintro y z ⟨hy, hk⟩ hn
    refine ⟨⟨h.sound hy hn, (h.same hy hn).trans hk⟩, ?_⟩
    rw [h.next_view hy hn]
    exact Int.lt_succ _
  refine ⟨pairwise_calls hstep n ⟨hx, rfl⟩, length_calls_le hstep (fun y z hy hn => ?_) n ⟨hx, rfl⟩⟩
  rw [← hy.2]
  exact h.waits hy.1 hn

namespace HotStuff

/-- The nested call of `ProcessBlock`: the state in which it is made, and its block. -/
def next (nd : Node) (a : HotStuff × Block) : Option (HotStuff × Block) :=
  match vetBlock nd a.2 a.1 with
  | .ok none t =>
    match insertAndVote nd a.2 t with
    | .ok none u => (u.bufferedBlocks.lookup a.2.view).map (u, ·)
    | _ => none
  | _ => none

variable {nd : Node} {s u : HotStuff} {b c : Block}

theorem next_eq_some (h : next nd (s, b) = some (u, c)) :
    ∃ t, vetBlock nd b s = .ok none t ∧ insertAndVote nd b t = .ok none u ∧
      u.bufferedBlocks.lookup b.view = some c := by
  unfold next at h
  split at h
  · rename_i t hv
    split at h
    · rename_i u' hi
      obtain ⟨c', hl, heq⟩ := Option.map_eq_some_iff.1 h
      cases heq
      exact ⟨t, hv, hi, hl⟩
    · cases h
  · cases h

theorem next_of_round {t : HotStuff} (hv : vetBlock nd b s = .ok none t) (hi : insertAndVote nd b t = .ok none u)
    (hl : u.bufferedBlocks.lookup b.view = some c) : next nd (s, b) = some (u, c) := by
  simp [next, hv, hi, hl]

theorem nestedCalls (nd : Node) : NestedCalls (next nd) (fun a => a.2.view) (fun a => a.1.bufferedBlocks.keys)
    fun a => Keyed nd a.1 := by
  have hnext : ∀ {x y : HotStuff × Block}, next nd x = some y →
      SameBuffer x.1 y.1 ∧ y.1.bufferedBlocks.lookup x.2.view = some y.2 := by
    rintro ⟨s, b⟩ ⟨u, c⟩ h
    obtain ⟨t, hv, hi, hl⟩ := next_eq_some h
    exact ⟨buffer_of_round hv hi, hl⟩
  refine ⟨fun hx h => hx.same (hnext h).1, fun hx h => ?_, fun _ h => ?_, fun _ h => ?_⟩
  · exact (hx.same (hnext h).1 _ _ (hnext h).2).1
  · obtain ⟨hsame, hl⟩ := hnext h
    rw [← show _ = _ from hsame]
    exact GoMap.mem_keys hl
  · rw [show _ = _ from (hnext h).1]

/-- What a call does depends on what the nested call does. -/
theorem processBlockN_congr {n n' : ℕ}
    (h : ∀ u c, next nd (s, b) = some (u, c) → processBlockN nd n c u = processBlockN nd n' c u) :
    processBlockN nd (n + 1) b s = processBlockN nd (n' + 1) b s := by
  unfold processBlockN
  cases hv : vetBlock nd b s with
  | error e t => rw [bind_apply_error hv, bind_apply_error hv]
  | ok r t =>
    rw [bind_apply_ok hv, bind_apply_ok hv]
    cases r with
    | some err => rfl
    | none =>
      dsimp only
      cases hi : insertAndVote nd b t with
      | error e u => rw [bind_apply_error hi, bind_apply_error hi]
      | ok r u =>
        rw [bind_apply_ok hi, bind_apply_ok hi]
        cases r with
        | some err => rfl
        | none =>
          dsimp only
          rw [get_bind_apply, get_bind_apply]
          cases hl : u.bufferedBlocks.lookup b.view with
          | none => rfl
          | some c =>
            have hnested := h u c (next_of_round hv hi hl)
            dsimp only
            cases hc : processBlockN nd n' c u with
            | ok r w => rw [bind_apply_ok hc, bind_apply_ok (hnested.trans hc)]
            | error e w => rw [bind_apply_error hc, bind_apply_error (hnested.trans hc)]

/-- More depth than `ProcessBlock` is given changes nothing. -/
theorem processBlockN_eq (hs : Keyed nd s) (b : Block) (k : ℕ) :
    processBlockN nd (s.bufferedBlocks.entries.length + 1 + k) b s = processBlock nd b s :=
  eq_of_length_calls_le (m := fun n x => processBlockN nd n x.2 x.1)
    (fun _ _ _ h => processBlockN_congr fun u c hn => h (u, c) hn)
    (fun n => length_keys s.bufferedBlocks ▸ ((nestedCalls nd).calls_spec (x := (s, b)) hs n).2) k

end HotStuff

namespace Tchs

/-- The nested call of `ProcessBlock`: the state in which it is made, and the address of its block. -/
def next (nd : Node) (a : Tchs × ℕ) : Option (Tchs × ℕ) :=
  match a.1.heap[a.2]? with
  | some (.block b) =>
    match vetBlock nd a.2 b a.1 with
    | .ok none t =>
      match insertAndVote nd b (a.1.qcAt a.2) t with
      | .ok none u => (u.bufferedBlocks.lookup b.view).map (u, ·)
      | _ => none
    | _ => none
  | _ => none

/-- The view of the block at an address. -/
def viewAt (a : Tchs × ℕ) : ℤ :=
  match a.1.heap[a.2]? with
  | some (.block b) => b.view
  | _ => 0

/-- A block that `ProcessBlock` is called on gets a cell. -/
def handed (s : Tchs) (b : Block) : Tchs × ℕ := ({ s with heap := s.heap ++ [.block b] }, s.heap.length)

variable {nd : Node} {s u : Tchs} {p q : ℕ}

theorem BlockAt.viewAt {view : ℤ} (h : s.BlockAt p view) : Tchs.viewAt (s, p) = view := by
  obtain ⟨b, hb, rfl⟩ := h
  unfold Tchs.viewAt
  rw [hb]

theorem next_eq_some (h : next nd (s, p) = some (u, q)) :
    ∃ b t, s.heap[p]? = some (.block b) ∧ vetBlock nd p b s = .ok none t ∧
      insertAndVote nd b (s.qcAt p) t = .ok none u ∧ u.bufferedBlocks.lookup b.view = some q := by
  unfold next at h
  split at h
  · rename_i b hb
    split at h
    · rename_i t hv
      split at h
      · rename_i u' hi
        obtain ⟨q', hl, heq⟩ := Option.map_eq_some_iff.1 h
        cases heq
        exact ⟨b, t, hb, hv, hi, hl⟩
      · cases h
    · cases h
  · cases h

theorem next_of_round {b : Block} {t : Tchs} (hb : s.heap[p]? = some (.block b))
    (hv : vetBlock nd p b s = .ok none t)
    (hi : insertAndVote nd b (s.qcAt p) t = .ok none u) (hl : u.bufferedBlocks.lookup b.view = some q) :
    next nd (s, p) = some (u, q) := by
  simp [next, hb, hv, hi, hl]

theorem nestedCalls (nd : Node) : NestedCalls (next nd) viewAt (fun a => a.1.bufferedBlocks.keys) fun a => Keyed a.1 := by
  have hnext : ∀ {x y : Tchs × ℕ}, next nd x = some y →
      Stowed x.1 y.1 ∧ y.1.bufferedBlocks.lookup (viewAt x) = some y.2 := by
    rintro ⟨s, p⟩ ⟨u, q⟩ h
    obtain ⟨b, t, hb, hv, hi, hl⟩ := next_eq_some h
    have hview : viewAt (s, p) = b.view := BlockAt.viewAt ⟨b, hb, rfl⟩
    exact ⟨stowed_of_round hv hi, by rw [hview]; exact hl⟩
  refine ⟨fun hx h => hx.stowed (hnext h).1, fun hx h => ?_, fun _ h => ?_, fun _ h => ?_⟩
  · exact (hx.stowed (hnext h).1 _ _ (hnext h).2).viewAt
  · obtain ⟨hst, hl⟩ := hnext h
    rw [← hst.buffer]
    exact GoMap.mem_keys hl
  · rw [(hnext h).1.buffer]

/-- What a call does depends on what the nested call does. -/
theorem processBlockN_congr {n n' : ℕ}
    (h : ∀ u q, next nd (s, p) = some (u, q) → processBlockN nd n q u = processBlockN nd n' q u) :
    processBlockN nd (n + 1) p s = processBlockN nd (n' + 1) p s := by
  unfold processBlockN
  rw [get_bind_apply, get_bind_apply]
  cases hp : s.heap[p]? with
  | none => rfl
  | some c =>
    cases c with
    | certificate _ => rfl
    | block b =>
      dsimp only
      cases hv : vetBlock nd p b s with
      | error e t => rw [bind_apply_error hv, bind_apply_error hv]
      | ok r t =>
        rw [bind_apply_ok hv, bind_apply_ok hv]
        cases r with
        | some err => rfl
        | none =>
          dsimp only
          cases hi : insertAndVote nd b (s.qcAt p) t with
          | error e u => rw [bind_apply_error hi, bind_apply_error hi]
          | ok r u =>
            rw [bind_apply_ok hi, bind_apply_ok hi]
            cases r with
            | some err => rfl
            | none =>
              dsimp only
              rw [get_bind_apply, get_bind_apply]
              cases hl : u.bufferedBlocks.lookup b.view with
              | none => rfl
              | some q => exact h u q (next_of_round hp hv hi hl)

theorem Keyed.handed (hs : Keyed s) (b : Block) : Keyed (s.handed b).1 :=
  hs.stowed (alloc_stowed (.block b) s)

/-- More depth than `ProcessBlock` is given changes nothing. -/
theorem processBlockN_eq (hs : Keyed s) (b : Block) (k : ℕ) :
    processBlockN nd (s.bufferedBlocks.entries.length + 1 + k) (s.handed b).2 (s.handed b).1 =
      processBlock nd b s :=
  eq_of_length_calls_le (a := s.handed b) (m := fun n x => processBlockN nd n x.2 x.1)
    (fun _ _ _ h => processBlockN_congr fun u q hn => h (u, q) hn)
    (fun n => length_keys s.bufferedBlocks ▸ ((nestedCalls nd).calls_spec (hs.handed b) n).2) k

end Tchs

/-- **Draining the buffered blocks ends**, in HotStuff and in two-chain HotStuff, in every state that a replica comes
to: an entry under the key `k` is a block of view `k + 1`; the nested calls of `ProcessBlock`, on any block, are on
blocks of increasing views, and with the first call there is at most one more of them than there are entries; and a
greater depth of the recursion changes nothing. -/
theorem draining_ends (nd : Node) (inputs : List Safety.Input) :
    ((∀ k c, (HotStuff.runOn nd inputs).bufferedBlocks.lookup k = some c → c.view = k + 1) ∧
      ∀ b n, ((calls (HotStuff.next nd) n (HotStuff.runOn nd inputs, b)).Pairwise fun x y => x.2.view < y.2.view) ∧
        (calls (HotStuff.next nd) n (HotStuff.runOn nd inputs, b)).length ≤
          (HotStuff.runOn nd inputs).bufferedBlocks.entries.length + 1 ∧
        HotStuff.processBlockN nd ((HotStuff.runOn nd inputs).bufferedBlocks.entries.length + 1 + n) b
          (HotStuff.runOn nd inputs) = HotStuff.processBlock nd b (HotStuff.runOn nd inputs)) ∧
    ((∀ k p, (Tchs.runOn nd inputs).bufferedBlocks.lookup k = some p → (Tchs.runOn nd inputs).BlockAt p (k + 1)) ∧
      ∀ b n, ((calls (Tchs.next nd) n ((Tchs.runOn nd inputs).handed b)).Pairwise fun x y =>
          Tchs.viewAt x < Tchs.viewAt y) ∧
        (calls (Tchs.next nd) n ((Tchs.runOn nd inputs).handed b)).length ≤
          (Tchs.runOn nd inputs).bufferedBlocks.entries.length + 1 ∧
        Tchs.processBlockN nd ((Tchs.runOn nd inputs).bufferedBlocks.entries.length + 1 + n)
          ((Tchs.runOn nd inputs).handed b).2 ((Tchs.runOn nd inputs).handed b).1 =
            Tchs.processBlock nd b (Tchs.runOn nd inputs)) := by
  have hhs := HotStuff.keyed_runOn nd inputs
  have hth := Tchs.keyed_runOn nd inputs
  refine ⟨⟨fun k c hl => (hhs k c hl).1, fun b n => ?_⟩, hth, fun b n => ?_⟩
  · obtain ⟨hviews, hlen⟩ := (HotStuff.nestedCalls nd).calls_spec (x := (HotStuff.runOn nd inputs, b)) hhs n
    exact ⟨hviews, length_keys _ ▸ hlen, HotStuff.processBlockN_eq hhs b n⟩
  · obtain ⟨hviews, hlen⟩ := (Tchs.nestedCalls nd).calls_spec (hth.handed b) n
    exact ⟨hviews, length_keys (Tchs.runOn nd inputs).bufferedBlocks ▸ hlen, Tchs.processBlockN_eq hth b n⟩

end Bamboo
