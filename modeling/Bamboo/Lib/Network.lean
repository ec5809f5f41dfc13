import Bamboo.Lib.Prog

/-!
# Asynchronous message passing

Processes that run fault-prone programs (`Bamboo.Lib.Prog`) on receipt of a message and on events of
their own.  A process keeps everything it ever sent in its outbox, and any message of an outbox may be
delivered to a process it is addressed to at any later moment, any number of times or never: delay,
reordering, loss and duplication are all there.  A process whose program stops with a fault is down
for good; what it sent before stays in the network.

* `System`: the processes, their programs and their outboxes;
* `System.act`, `System.Can`: one event, and when it may happen;
* `System.Reachable`: the global states of all runs;
* `System.Runs`: the runs all of whose events meet a condition, with what happened in them;
* `System.exec`, `System.follow`: a schedule run step by step, for concrete runs;
* `SmallSteps`: programs cut into small steps, and `SmallSteps.Reachable.of_reachable`, which turns the
  reachable states of the system into reachable states of its small steps.
-/

namespace Net

/-- A message on its way: `dest = none` is a broadcast to everyone else. -/
structure Envelope (ν μ : Type) where
  dest : Option ν
  body : μ
  deriving DecidableEq, Repr

/-- A process: its state, and whether it is still running. -/
structure Proc (σ : Type) where
  st : σ
  up : Bool

/-- Run a program in a process. -/
def Proc.run {ε σ α : Type} (m : EStateM ε σ α) (p : Proc σ) : Proc σ :=
  match m p.st with
  | .ok _ t => ⟨t, true⟩
  | .error _ t => ⟨t, false⟩

theorem Proc.run_st {ε σ α : Type} (m : EStateM ε σ α) (p : Proc σ) :
    (p.run m).st = Prog.final (m p.st) := by
  unfold Proc.run Prog.final
  cases m p.st <;> rfl

/-- The local states of all processes. -/
def states {ν σ : Type} (net : ν → Proc σ) : ν → σ := fun i => (net i).st

/-- A distributed system: processes named by `ν`, messages `μ`, local events `ι`, faults `ε`, local
states `σ`. -/
structure System (ν μ ι ε σ : Type) where
  members : List ν
  init : σ
  outbox : σ → List (Envelope ν μ)
  receive : ν → μ → EStateM ε σ Unit
  enabled : ν → ι → σ → Bool
  trigger : ν → ι → EStateM ε σ Unit

/-- One event of a system: a delivery, or a local event of a process. -/
inductive Action (ν μ ι : Type)
  | deliver (src dst : ν) (m : μ)
  | fire (i : ν) (e : ι)

variable {ν μ ι ε σ : Type} [DecidableEq ν]

/-- The message `m` was sent by `src` and is addressed to `dst`. -/
def InFlight (outbox : σ → List (Envelope ν μ)) (w : ν → σ) (src dst : ν) (m : μ) : Prop :=
  ⟨some dst, m⟩ ∈ outbox (w src) ∨ (dst ≠ src ∧ ⟨none, m⟩ ∈ outbox (w src))

instance [DecidableEq μ] (outbox : σ → List (Envelope ν μ)) (w : ν → σ) (src dst : ν) (m : μ) :
    Decidable (InFlight outbox w src dst m) :=
  inferInstanceAs (Decidable (_ ∨ _))

namespace System

variable (S : System ν μ ι ε σ)

/-- When an event may happen. -/
def Can (net : ν → Proc σ) : Action ν μ ι → Prop
  | .deliver src dst m =>
    dst ∈ S.members ∧ (net dst).up = true ∧ InFlight S.outbox (states net) src dst m
  | .fire i e => i ∈ S.members ∧ (net i).up = true ∧ S.enabled i e (net i).st = true

instance [DecidableEq μ] (net : ν → Proc σ) : (a : Action ν μ ι) → Decidable (S.Can net a)
  | .deliver _ _ _ => inferInstanceAs (Decidable (_ ∧ _ ∧ _))
  | .fire _ _ => inferInstanceAs (Decidable (_ ∧ _ ∧ _))

/-- The process an event happens at. -/
def Action.target : Action ν μ ι → ν
  | .deliver _ dst _ => dst
  | .fire i _ => i

/-- The program an event runs. -/
def program : Action ν μ ι → EStateM ε σ Unit
  | .deliver _ dst m => S.receive dst m
  | .fire i e => S.trigger i e

/-- The global state after an event. -/
def act (net : ν → Proc σ) (a : Action ν μ ι) : ν → Proc σ :=
  Function.update net (Action.target a) ((net (Action.target a)).run (S.program a))

/-- All processes in their initial states. -/
def start : ν → Proc σ := fun _ => ⟨S.init, true⟩

/-- The global states of all runs. -/
inductive Reachable : (ν → Proc σ) → Prop
  | start : Reachable S.start
  | step {net : ν → Proc σ} {a : Action ν μ ι} (h : Reachable net) (hc : S.Can net a) :
      Reachable (S.act net a)

variable {S}

theorem act_st (net : ν → Proc σ) (a : Action ν μ ι) (j : ν) :
    (S.act net a j).st =
      if j = Action.target a then Prog.final (S.program a (net j).st) else (net j).st := by
  unfold act
  by_cases h : j = Action.target a
  · subst h
    rw [Function.update_self, if_pos rfl, Proc.run_st]
  · rw [Function.update_of_ne h, if_neg h]

/-- A delivery whose program ends without a fault. -/
theorem Reachable.deliver {net : ν → Proc σ} (h : S.Reachable net) {src dst : ν} {m : μ} {t : σ}
    (hdst : dst ∈ S.members) (hup : (net dst).up = true) (hm : InFlight S.outbox (states net) src dst m)
    (ht : S.receive dst m (net dst).st = .ok () t) : S.Reachable (Function.update net dst ⟨t, true⟩) := by
  have hstep := h.step (a := .deliver src dst m) ⟨hdst, hup, hm⟩
  unfold act Proc.run at hstep
  simpa only [Action.target, program, ht] using hstep

/-- A local event whose program ends without a fault. -/
theorem Reachable.fire {net : ν → Proc σ} (h : S.Reachable net) {i : ν} {e : ι} {t : σ} (hi : i ∈ S.members)
    (hup : (net i).up = true) (he : S.enabled i e (net i).st = true)
    (ht : S.trigger i e (net i).st = .ok () t) : S.Reachable (Function.update net i ⟨t, true⟩) := by
  have hstep := h.step (a := .fire i e) ⟨hi, hup, he⟩
  unfold act Proc.run at hstep
  simpa only [Action.target, program, ht] using hstep

/-- **One process after the other**: what can be had for one more process can be had for a list of them. -/
theorem Reachable.sweep {P : Finset ν → (ν → Proc σ) → Prop}
    (hstep : ∀ {W net i}, S.Reachable net → P W net → i ∈ S.members →
      ∃ net', S.Reachable net' ∧ P (insert i W) net') {W : Finset ν} {net : ν → Proc σ} (h : S.Reachable net)
    (hP : P W net) (l : List ν) (hl : l ⊆ S.members) : ∃ net', S.Reachable net' ∧ P (l.toFinset ∪ W) net' := by
  induction l with
  | nil => exact ⟨net, h, by simpa using hP⟩
  | cons i l ih =>
    obtain ⟨net', h', hP'⟩ := ih fun j hj => hl (List.mem_cons_of_mem _ hj)
    obtain ⟨net'', h'', hP''⟩ := hstep h' hP' (hl List.mem_cons_self)
    exact ⟨net'', h'', by rwa [List.toFinset_cons, Finset.insert_union]⟩

/-- The runs in which every event meets the condition `C` on the events and the state before it: the
events, oldest first, and the state they lead to. -/
inductive Runs (S : System ν μ ι ε σ)
    (C : List (Action ν μ ι) → (ν → Proc σ) → Action ν μ ι → Prop) :
    List (Action ν μ ι) → (ν → Proc σ) → Prop
  | start : Runs S C [] S.start
  | step {as : List (Action ν μ ι)} {net : ν → Proc σ} {a : Action ν μ ι} (h : Runs S C as net)
      (hc : S.Can net a) (ha : C as net a) : Runs S C (as ++ [a]) (S.act net a)

/-! ### Concrete runs -/

/-- An event of a schedule: a delivery is named by the place of the message in its sender's outbox. -/
inductive Sched (ν ι : Type)
  | pass (src : ν) (k : ℕ) (dst : ν)
  | fire (i : ν) (e : ι)

variable (S)

/-- The action a schedule's event stands for. -/
def resolve (net : ν → Proc σ) : Sched ν ι → Option (Action ν μ ι)
  | .pass src k dst => ((S.outbox (net src).st)[k]?).map fun e => .deliver src dst e.body
  | .fire i e => some (.fire i e)

/-- Run a schedule; `none` when one of its events cannot happen. -/
def exec [DecidableEq μ] : List (Sched ν ι) → (ν → Proc σ) → Option (ν → Proc σ)
  | [], net => some net
  | e :: es, net =>
    match S.resolve net e with
    | none => none
    | some a => if S.Can net a then exec es (S.act net a) else none

variable {S}

/-- A schedule that runs leads from a reachable state to a reachable state. -/
theorem Reachable.exec [DecidableEq μ] {es : List (Sched ν ι)} {net net' : ν → Proc σ}
    (h : S.Reachable net) (he : S.exec es net = some net') : S.Reachable net' := by
  induction es generalizing net with
  | nil => cases he; exact h
  | cons e es ih =>
    unfold System.exec at he
    cases hr : S.resolve net e with
    | none => simp [hr] at he
    | some a =>
      simp only [hr] at he
      split_ifs at he with hc
      exact ih (h.step hc) he

/-- A schedule whose last state passes a test shows that a reachable state does. -/
theorem exists_reachable [DecidableEq μ] (S : System ν μ ι ε σ) (es : List (Sched ν ι))
    (test : (ν → Proc σ) → Bool) (h : (S.exec es S.start).any test = true) :
    ∃ net, S.Reachable net ∧ test net = true := by
  cases he : S.exec es S.start with
  | none => simp [he] at h
  | some net => exact ⟨net, Reachable.start.exec he, by simpa [he] using h⟩

variable (S) in
/-- Run a schedule and collect its events; `none` when one of them cannot happen or fails the test. -/
def follow [DecidableEq μ] (c : List (Action ν μ ι) → (ν → Proc σ) → Action ν μ ι → Bool) :
    List (Sched ν ι) → List (Action ν μ ι) → (ν → Proc σ) →
      Option (List (Action ν μ ι) × (ν → Proc σ))
  | [], as, net => some (as, net)
  | e :: es, as, net =>
    match S.resolve net e with
    | none => none
    | some a => if S.Can net a ∧ c as net a = true then follow c es (as ++ [a]) (S.act net a) else none

theorem Runs.follow [DecidableEq μ] {C : List (Action ν μ ι) → (ν → Proc σ) → Action ν μ ι → Prop}
    {c : List (Action ν μ ι) → (ν → Proc σ) → Action ν μ ι → Bool}
    (hc : ∀ as net a, c as net a = true → C as net a) {es : List (Sched ν ι)}
    {as : List (Action ν μ ι)} {net : ν → Proc σ} {r : List (Action ν μ ι) × (ν → Proc σ)}
    (h : S.Runs C as net) (he : S.follow c es as net = some r) : S.Runs C r.1 r.2 := by
  induction es generalizing as net with
  | nil => cases he; exact h
  | cons e es ih =>
    unfold System.follow at he
    cases hr : S.resolve net e with
    | none => simp [hr] at he
    | some a =>
      simp only [hr] at he
      split_ifs at he with hcan
      exact ih (h.step hcan.1 (hc _ _ _ hcan.2)) he

/-- A schedule whose events pass a test that ensures the condition, and whose last state passes another
one, shows that there is such a run. -/
theorem exists_runs [DecidableEq μ] (S : System ν μ ι ε σ)
    {C : List (Action ν μ ι) → (ν → Proc σ) → Action ν μ ι → Prop}
    {c : List (Action ν μ ι) → (ν → Proc σ) → Action ν μ ι → Bool}
    (hc : ∀ as net a, c as net a = true → C as net a) (es : List (Sched ν ι))
    (test : (ν → Proc σ) → Bool) (h : (S.follow c es [] S.start).any (fun r => test r.2) = true) :
    ∃ as net, S.Runs C as net ∧ test net = true := by
  cases he : S.follow c es [] S.start with
  | none => simp [he] at h
  | some r => exact ⟨r.1, r.2, Runs.start.follow hc he, by simpa [he] using h⟩

end System

/-! ### Runs in small steps

The programs of a system are cut into small steps, so that an invariant of all runs has to be checked
for each small step only.  A small step of a process may use the messages sent to it so far. -/

/-- Some process has sent the message. -/
def Sent (outbox : σ → List (Envelope ν μ)) (w : ν → σ) (m : μ) : Prop :=
  ∃ i, ∃ e ∈ outbox (w i), e.body = m

/-- Some process has sent the message to `i`. -/
def SentTo (outbox : σ → List (Envelope ν μ)) (w : ν → σ) (i : ν) (m : μ) : Prop :=
  ∃ j, InFlight outbox w j i m

omit [DecidableEq ν] in
theorem SentTo.sent {outbox : σ → List (Envelope ν μ)} {w : ν → σ} {i : ν} {m : μ}
    (h : SentTo outbox w i m) : Sent outbox w m := by
  obtain ⟨j, h | ⟨-, h⟩⟩ := h
  · exact ⟨j, _, h, rfl⟩
  · exact ⟨j, _, h, rfl⟩

/-- After a change at `i`, a fact about the state of `j` is one about the new state, or an old one. -/
theorem update_cases {w : ν → σ} {i j : ν} {t : σ} {P : σ → Prop}
    (h : P (Function.update w i t j)) : j = i ∧ P t ∨ P (w j) := by
  by_cases hj : j = i
  · subst hj
    rw [Function.update_self] at h
    exact Or.inl ⟨rfl, h⟩
  · rw [Function.update_of_ne hj] at h
    exact Or.inr h

/-- After a change at `i`, every process stands to its state before as `i` does. -/
theorem update_rel {r : σ → σ → Prop} (hr : ∀ s, r s s) {w : ν → σ} {i : ν} {t : σ} (h : r (w i) t) (j : ν) :
    r (w j) (Function.update w i t j) := by
  by_cases hj : j = i
  · subst hj
    rw [Function.update_self]
    exact h
  · rw [Function.update_of_ne hj]
    exact hr _

/-- Small steps for the programs of a system: `step i In` relates local states of process `i`, given
the messages `In` it may have received, and `Ok` is what a process keeps true by itself. -/
structure SmallSteps (S : System ν μ ι ε σ) where
  step : ν → (μ → Prop) → σ → σ → Prop
  Ok : ν → (μ → Prop) → σ → Prop
  step_mono : ∀ {i} {P Q : μ → Prop} {s t}, (∀ m, P m → Q m) → step i P s t → step i Q s t
  ok_mono : ∀ {i} {P Q : μ → Prop} {s}, (∀ m, P m → Q m) → Ok i P s → Ok i Q s
  outbox_subset : ∀ {i P s t}, step i P s t → S.outbox s ⊆ S.outbox t
  ok_init : ∀ i P, Ok i P S.init
  ok_step : ∀ {i P s t}, Ok i P s → step i P s t → Ok i P t
  receive : ∀ {i P s m}, Ok i P s → P m →
    Relation.ReflTransGen (step i P) s (Prog.final (S.receive i m s))
  trigger : ∀ {i P s e}, Ok i P s → S.enabled i e s = true →
    Relation.ReflTransGen (step i P) s (Prog.final (S.trigger i e s))

namespace SmallSteps

variable {S : System ν μ ι ε σ} (R : SmallSteps S)

/-- The global states that small steps lead to. -/
inductive Reachable : (ν → σ) → Prop
  | start : Reachable fun _ => S.init
  | step {w : ν → σ} {i : ν} {t : σ} (h : Reachable w) (hi : i ∈ S.members)
      (ht : R.step i (SentTo S.outbox w i) (w i) t) : Reachable (Function.update w i t)

variable {R}

theorem sentTo_update {w : ν → σ} {i k : ν} {t : σ} (h : S.outbox (w i) ⊆ S.outbox t) {m : μ}
    (hm : SentTo S.outbox w k m) : SentTo S.outbox (Function.update w i t) k m := by
  have hsub : ∀ j, S.outbox (w j) ⊆ S.outbox (Function.update w i t j) := by
    intro j
    by_cases hj : j = i
    · subst hj
      rw [Function.update_self]
      exact h
    · rw [Function.update_of_ne hj]
      exact List.Subset.refl _
  obtain ⟨j, hm⟩ := hm
  exact ⟨j, hm.imp (fun h => hsub j h) fun h => ⟨h.1, hsub j h.2⟩⟩

/-- **Invariants of single processes.**  `J w i s` is about the state `s` of process `i` in the global state `w`.
It may rest on a condition `P` on the last global state of the run, one that held before whenever it holds
later. -/
theorem Reachable.invariant {P : (ν → σ) → Prop} {J : (ν → σ) → ν → σ → Prop}
    (h0 : ∀ i, J (fun _ => S.init) i S.init)
    (back : ∀ {w i t}, R.step i (SentTo S.outbox w i) (w i) t → P (Function.update w i t) → P w)
    (step : ∀ {w i t}, R.Reachable w → i ∈ S.members → P (Function.update w i t) →
      R.step i (SentTo S.outbox w i) (w i) t → J w i (w i) → J (Function.update w i t) i t)
    (other : ∀ {w i t j s}, R.step i (SentTo S.outbox w i) (w i) t → J w j s → J (Function.update w i t) j s)
    {w : ν → σ} (hw : R.Reachable w) (hP : P w) (j : ν) : J w j (w j) := by
  induction hw generalizing j with
  | start => exact h0 j
  | @step w i t hr hi ht ih =>
    have hold := ih (back ht hP) j
    by_cases hj : j = i
    · subst hj
      rw [Function.update_self]
      exact step hr hi hP ht hold
    · rw [Function.update_of_ne hj]
      exact other ht hold

/-- What the small steps of a process keep, whatever it has received, holds in all reachable states. -/
theorem Reachable.keeps {J : ν → σ → Prop} (h0 : ∀ i, J i S.init)
    (step : ∀ {i In s t}, R.step i In s t → J i s → J i t) {w : ν → σ} (hw : R.Reachable w) (j : ν) :
    J j (w j) :=
  hw.invariant (P := fun _ => True) (J := fun _ => J) h0 (fun _ _ => trivial) (fun _ _ _ => step)
    (fun _ h => h) trivial j

/-- Every process keeps `Ok`. -/
theorem Reachable.ok {w : ν → σ} (h : R.Reachable w) (j : ν) : R.Ok j (SentTo S.outbox w j) (w j) := by
  induction h generalizing j with
  | start => exact R.ok_init j _
  | @step w i t _ _ ht ih =>
    have hmono : ∀ m, SentTo S.outbox w j m → SentTo S.outbox (Function.update w i t) j m :=
      fun m => sentTo_update (R.outbox_subset ht)
    by_cases hj : j = i
    · subst hj
      rw [Function.update_self]
      exact R.ok_mono hmono (R.ok_step (ih j) ht)
    · rw [Function.update_of_ne hj]
      exact R.ok_mono hmono (ih j)

/-- Who is no member never does anything. -/
theorem Reachable.eq_init {w : ν → σ} (h : R.Reachable w) {j : ν} (hj : j ∉ S.members) :
    w j = S.init := by
  induction h with
  | start => rfl
  | @step w i t _ hi _ ih =>
    have hji : j ≠ i := fun hji => hj (hji ▸ hi)
    rw [Function.update_of_ne hji, ih]

/-- A sequence of small steps of one process is one of the system. -/
theorem Reachable.steps {w : ν → σ} (h : R.Reachable w) {i : ν} (hi : i ∈ S.members) {t : σ}
    (ht : Relation.ReflTransGen (R.step i (SentTo S.outbox w i)) (w i) t) :
    R.Reachable (Function.update w i t) ∧ S.outbox (w i) ⊆ S.outbox t := by
  induction ht with
  | refl => exact ⟨by rwa [Function.update_eq_self], List.Subset.refl _⟩
  | @tail u v _ huv ih =>
    obtain ⟨hr, hsub⟩ := ih
    refine ⟨?_, List.Subset.trans hsub (R.outbox_subset huv)⟩
    have hstep : R.step i (SentTo S.outbox (Function.update w i u) i) (Function.update w i u i) v := by
      rw [Function.update_self]
      exact R.step_mono (fun m => sentTo_update hsub) huv
    simpa using hr.step hi hstep

/-- **Every run of the system is a run in small steps.** -/
theorem Reachable.of_reachable {net : ν → Proc σ} (h : S.Reachable net) :
    R.Reachable (states net) := by
  induction h with
  | start => exact .start
  | @step net a _ hc ih =>
    have hact : states (S.act net a) = Function.update (states net)
        (System.Action.target a) (Prog.final (S.program a (net (System.Action.target a)).st)) := by
      funext j
      rw [states, System.act_st, Function.update_apply]
      split_ifs with hj
      · rw [hj]
      · rfl
    rw [hact]
    have hok := ih.ok (System.Action.target a)
    cases a with
    | deliver src dst m =>
      obtain ⟨hmem, -, hfl⟩ := hc
      exact (ih.steps hmem (R.receive hok ⟨src, hfl⟩)).1
    | fire i e =>
      obtain ⟨hmem, -, hen⟩ := hc
      exact (ih.steps hmem (R.trigger hok hen)).1

end SmallSteps

end Net
