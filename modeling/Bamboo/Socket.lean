import Bamboo.Types

/-!
# The socket

`socket/socket.go` over `transport/transport.go`: what a node's messages go through before they reach the
connection to another node, with the faults that can be injected on the way.

* `Send` runs in several goroutines at once and takes no lock while it looks at the injected faults, so it is a
  sequence of steps here, each with one look; `Broadcast` is one `Send` for each other address.
* Messages are numbers here: the socket carries references, and what a reference stands for is read when the
  message is encoded.
* `Send` looks for the transport in `nodes` and dials the address otherwise; both succeed for a node that has an
  address, and for the node itself.  A node that panics because nobody answers is one that takes no more steps.  Two
  goroutines may both dial, so the messages for a destination can overtake each other: what waits to be encoded has
  no order.
* A message that is slowed down waits in a goroutine of its own, and a fault ends when its timer expires; any of
  them may run next.

* `Socket`, `Socket.post`, `Socket.proceed`, `Socket.wake`: sending;
* `Socket.tokens`: the messages a socket has taken and not passed on;
* `Socket.count_proceed`, `Socket.count_post`: a message is nowhere twice, and is not lost without a fault.
-/

namespace Bamboo

/-- The goroutine that ends an injected fault. -/
inductive FaultTimer
  | drop (id : NodeID)
  | slow (id : NodeID)
  | flaky (id : NodeID)
  | crash
  deriving DecidableEq

/-- Where a call of `Send` is. -/
inductive SendPoint
  /-- before the test of `crash` -/
  | entered
  /-- before the test of `drop` -/
  | notCrashed
  /-- before the test of `flaky` -/
  | notDropped
  /-- before the search for the transport -/
  | notFlaky
  /-- before the test of `slow` -/
  | connected
  deriving DecidableEq

/-- A call of `Send`. -/
structure Sending where
  dst : NodeID
  ref : ℕ
  point : SendPoint
  deriving DecidableEq

/-- What a step of `Send` comes to. -/
inductive Outcome
  | gone
  | goesOn (p : SendPoint)
  | delayed
  | queued
  deriving DecidableEq

/-- The struct `socket`. -/
structure Socket where
  id : NodeID
  addresses : List NodeID
  crash : Bool
  drop : NodeID → Bool
  slow : NodeID → ℤ
  flaky : NodeID → ℚ
  timers : List FaultTimer
  /-- the calls of `Send` that run -/
  sending : List Sending
  /-- the messages that wait for a delay to pass -/
  delayed : List (NodeID × ℕ)
  /-- the messages in the `send` channels of the transports -/
  queue : List (NodeID × ℕ)

namespace Socket

/-- `NewSocket`. -/
def new (id : NodeID) (addrs : List NodeID) : Socket :=
  ⟨id, addrs, false, fun _ => false, fun _ => 0, fun _ => 0, [], [], [], []⟩

variable (s : Socket)

/-- The next step of `Send`; `r` is the number drawn for a flaky destination. -/
def outcome (r : ℚ) (c : Sending) : Outcome :=
  match c.point with
  | .entered => if s.crash = true then .gone else .goesOn .notCrashed
  | .notCrashed => if s.drop c.dst = true then .gone else .goesOn .notDropped
  | .notDropped => if 0 < s.flaky c.dst ∧ r < s.flaky c.dst then .gone else .goesOn .notFlaky
  | .notFlaky => if c.dst = s.id ∨ c.dst ∈ s.addresses then .goesOn .connected else .gone
  | .connected => if 0 < s.slow c.dst then .delayed else .queued

/-- The `n`-th of the running calls of `Send` makes a step. -/
def proceed (r : ℚ) (n : ℕ) : Option Socket :=
  match s.sending[n]? with
  | none => none
  | some c =>
    let rest := s.sending.eraseIdx n
    match s.outcome r c with
    | .gone => some { s with sending := rest }
    | .goesOn p => some { s with sending := ⟨c.dst, c.ref, p⟩ :: rest }
    | .delayed => some { s with sending := rest, delayed := (c.dst, c.ref) :: s.delayed }
    | .queued => some { s with sending := rest, queue := (c.dst, c.ref) :: s.queue }

/-- The destinations of `Send` and of `Broadcast`. -/
def destinations : Option NodeID → List NodeID
  | some dst => [dst]
  | none => s.addresses.filter fun dst => dst ≠ s.id

/-- A call of `Send` or of `Broadcast`. -/
def post (dest : Option NodeID) (ref : ℕ) : Socket :=
  { s with sending := s.sending ++ (s.destinations dest).map fun dst => ⟨dst, ref, .entered⟩ }

/-- The `n`-th of the waiting messages has waited long enough. -/
def wake (n : ℕ) : Option Socket :=
  match s.delayed[n]? with
  | none => none
  | some x => some { s with delayed := s.delayed.eraseIdx n, queue := x :: s.queue }

/-! ### Faults -/

/-- `Drop`. -/
def dropFor (id : NodeID) : Socket :=
  { s with drop := Function.update s.drop id true, timers := s.timers ++ [.drop id] }

/-- `Slow`. -/
def slowFor (id : NodeID) (delay : ℤ) : Socket :=
  { s with slow := Function.update s.slow id delay, timers := s.timers ++ [.slow id] }

/-- `Flaky`. -/
def flakyFor (id : NodeID) (p : ℚ) : Socket :=
  { s with flaky := Function.update s.flaky id p, timers := s.timers ++ [.flaky id] }

/-- `Crash`, for ever unless `t` is positive. -/
def crashFor (t : ℤ) : Socket :=
  { s with crash := true, timers := if 0 < t then s.timers ++ [.crash] else s.timers }

/-- The end of a fault. -/
def reset : FaultTimer → Socket
  | .drop id => { s with drop := Function.update s.drop id false }
  | .slow id => { s with slow := Function.update s.slow id 0 }
  | .flaky id => { s with flaky := Function.update s.flaky id 0 }
  | .crash => { s with crash := false }

/-- The `n`-th of the running timers expires. -/
def expire (n : ℕ) : Option Socket :=
  match s.timers[n]? with
  | none => none
  | some x => some { s.reset x with timers := s.timers.eraseIdx n }

/-! ### Where the messages are -/

/-- The messages a socket has taken and not passed on, each with its destination. -/
def tokens : List (NodeID × ℕ) := s.sending.map (fun c => (c.dst, c.ref)) ++ (s.delayed ++ s.queue)

/-- No fault stands in the way of messages. -/
structure Clean : Prop where
  crash : s.crash = false
  drop : ∀ d, s.drop d = false
  flaky : ∀ d, s.flaky d ≤ 0

/-- The same node, with the same faults but for delays. -/
structure Alike (s t : Socket) : Prop where
  id : t.id = s.id
  addresses : t.addresses = s.addresses
  crash : t.crash = s.crash
  drop : t.drop = s.drop
  flaky : t.flaky = s.flaky

variable {s} {t : Socket} {r : ℚ} {n ref : ℕ} {x : NodeID × ℕ}

theorem Alike.clean (h : Alike s t) (hc : s.Clean) : t.Clean :=
  ⟨h.crash.trans hc.crash, fun d => h.drop ▸ hc.drop d, fun d => h.flaky ▸ hc.flaky d⟩

theorem perm_of_getElem? {α : Type} {l : List α} {a : α} (h : l[n]? = some a) : (a :: l.eraseIdx n).Perm l := by
  obtain ⟨hlt, rfl⟩ := List.getElem?_eq_some_iff.1 h
  exact List.getElem_cons_eraseIdx_perm hlt

theorem not_gone {c : Sending} (h : s.Clean) (hd : c.dst ∈ s.addresses) : s.outcome r c ≠ .gone := by
  unfold outcome
  cases c.point with
  | entered => simp [h.crash]
  | notCrashed => simp [h.drop]
  | notDropped =>
    have := h.flaky c.dst
    simp [not_lt.2 this]
  | notFlaky => simp [hd]
  | connected =>
    dsimp only
    split_ifs <;> simp

/-- **A step of `Send`** moves a message on, or loses it. -/
theorem tokens_proceed (h : s.proceed r n = some t) : Alike s t ∧
    ∃ c, (t.tokens.Perm s.tokens ∨ s.outcome r c = .gone ∧ ((c.dst, c.ref) :: t.tokens).Perm s.tokens) := by
  unfold proceed at h
  split at h
  · cases h
  · next c hc =>
    have hperm := ((perm_of_getElem? hc).map fun c => (c.dst, c.ref)).append_right (s.delayed ++ s.queue)
    rw [List.map_cons] at hperm
    dsimp only at h
    split at h
    · next hout =>
      cases h
      exact ⟨⟨rfl, rfl, rfl, rfl, rfl⟩, c, Or.inr ⟨hout, hperm⟩⟩
    · cases h
      exact ⟨⟨rfl, rfl, rfl, rfl, rfl⟩, c, Or.inl hperm⟩
    · cases h
      refine ⟨⟨rfl, rfl, rfl, rfl, rfl⟩, c, Or.inl (List.Perm.trans ?_ hperm)⟩
      exact List.perm_middle
    · cases h
      refine ⟨⟨rfl, rfl, rfl, rfl, rfl⟩, c, Or.inl (List.Perm.trans ?_ hperm)⟩
      rw [tokens, ← List.append_assoc, List.cons_append, ← List.append_assoc]
      exact List.perm_middle

theorem count_proceed (h : s.proceed r n = some t) (x : NodeID × ℕ) : t.tokens.count x ≤ s.tokens.count x ∧
    (s.Clean → x.1 ∈ s.addresses → t.tokens.count x = s.tokens.count x) := by
  obtain ⟨-, c, hperm | ⟨hgone, hperm⟩⟩ := tokens_proceed h
  · exact ⟨(hperm.count_eq x).le, fun _ _ => hperm.count_eq x⟩
  · have hcount := hperm.count_eq x
    rw [List.count_cons] at hcount
    refine ⟨by omega, fun hclean hd => ?_⟩
    split_ifs at hcount with hx
    · rw [← eq_of_beq hx] at hd
      exact absurd hgone (not_gone hclean hd)
    · exact hcount

theorem tokens_wake (h : s.wake n = some t) : Alike s t ∧ t.tokens.Perm s.tokens := by
  unfold wake at h
  split at h
  · cases h
  · next y hy =>
    cases h
    refine ⟨⟨rfl, rfl, rfl, rfl, rfl⟩, List.Perm.append_left _ ?_⟩
    exact List.perm_middle.trans ((perm_of_getElem? hy).append_right s.queue)

/-- **A call of `Send` or `Broadcast`** is one message for each destination. -/
theorem count_post (s : Socket) (hnd : s.addresses.Nodup) (dest : Option NodeID) (ref : ℕ) (x : NodeID × ℕ) :
    (s.post dest ref).tokens.count x =
      s.tokens.count x + if x.2 = ref ∧ x.1 ∈ s.destinations dest then 1 else 0 := by
  have hnd' : (s.destinations dest).Nodup := by
    cases dest with
    | some dst => exact List.nodup_singleton dst
    | none => exact hnd.filter _
  have hnew : ((s.destinations dest).map fun dst => (dst, ref)).count x =
      if x.2 = ref ∧ x.1 ∈ s.destinations dest then 1 else 0 := by
    have hinj : Function.Injective fun dst : NodeID => (dst, ref) := fun _ _ h => (Prod.mk.inj h).1
    split_ifs with hx
    · rw [List.count_eq_one_of_mem (hnd'.map hinj)]
      exact List.mem_map.2 ⟨x.1, hx.2, by rw [← hx.1]⟩
    · refine List.count_eq_zero_of_not_mem fun hmem => hx ?_
      obtain ⟨dst, hdst, rfl⟩ := List.mem_map.1 hmem
      exact ⟨rfl, hdst⟩
  have hmap : ((s.destinations dest).map fun dst => (⟨dst, ref, .entered⟩ : Sending)).map
      (fun c => (c.dst, c.ref)) = (s.destinations dest).map fun dst => (dst, ref) := by
    rw [List.map_map]
    rfl
  simp only [tokens, post, List.map_append, List.count_append, hmap, hnew]
  omega

/-- The end of a fault changes no message, and is no fault itself. -/
theorem expire_cases (h : s.expire n = some t) : t.id = s.id ∧ t.addresses = s.addresses ∧ t.tokens = s.tokens ∧
    (s.Clean → t.Clean) := by
  unfold expire at h
  split at h
  · cases h
  · next y _ =>
    cases h
    cases y with
    | drop id =>
      refine ⟨rfl, rfl, rfl, fun hc => ⟨hc.crash, fun d => ?_, hc.flaky⟩⟩
      show Function.update s.drop id false d = false
      rw [Function.update_apply, hc.drop, ite_self]
    | slow id => exact ⟨rfl, rfl, rfl, fun hc => ⟨hc.crash, hc.drop, hc.flaky⟩⟩
    | flaky id =>
      refine ⟨rfl, rfl, rfl, fun hc => ⟨hc.crash, hc.drop, fun d => ?_⟩⟩
      show Function.update s.flaky id 0 d ≤ 0
      rw [Function.update_apply]
      split_ifs
      · exact le_refl 0
      · exact hc.flaky d
    | crash => exact ⟨rfl, rfl, rfl, fun hc => ⟨rfl, hc.drop, hc.flaky⟩⟩

end Socket

end Bamboo
