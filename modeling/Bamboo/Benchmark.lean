import Bamboo.Lib.Lts
import Bamboo.Types

/-!
# The benchmark

`benchmark/benchmark.go` with the client of `client.go`: `Run` hands keys to its workers, who write each of them to all
nodes, and a collector waits for latencies.  The lines of the workers that measure latencies are commented out.

Workers are told apart only by what they do, so the state has the number of idle ones and the keys in the hands of the
others.  The rate limiter only delays `Run` and is left out here.

* `Settings`, `State`, `Move`, `can`, `act`: the goroutines of a benchmark as a transition system;
* `Unmeasured`, `run_never_returns`: `Run` waits for ever or panics, in every run;
* `Served`: every key that was generated is written at most once;
* `request_ids_distinct_iff`: when no two requests have the same id.
-/

namespace Bamboo

namespace Benchmark

/-- What `Run` and the client read of the configuration, where the nodes are numbered from 1, and the size of the
largest channel of keys for which `make` has memory. -/
structure Settings where
  T : ℤ
  N : ℤ
  concurrency : ℤ
  distribution : String
  n : ℕ
  byzNo : ℤ
  strategy : String
  room : ℤ
  deriving DecidableEq

variable (c : Settings)

/-- The nodes that `NewHTTPClient` leaves in the map of addresses. -/
def targets : List ℕ :=
  let ids := List.range' 1 c.n
  if c.strategy = "silence" then ids.filter fun id => ¬ (id : ℤ) ≤ c.byzNo else ids

/-- `AllPut`: the ids of the requests for a key, one for each node. -/
def allPut (key : ℤ) : List ℤ := (targets c).map fun id : ℕ => int64 (key + id)

/-- `next`: the key and the new `count`, or `none` when `log.Fatalf` ends the process. -/
def next (count : ℕ) : Option (ℤ × ℕ) :=
  if c.distribution = "uniform" then some (int64 count, (count + uint64 (c.n - c.byzNo)) % 2 ^ 64) else none

/-- The largest value of the counter of a `sync.WaitGroup`, an `int32`. -/
def maxWait : ℤ := 2 ^ 31 - 1

/-- `Stat`. -/
structure Stat where
  data : List Float
  size : ℕ
  mean : Float
  min : Float
  max : Float
  median : Float
  p95 : Float
  p99 : Float
  p999 : Float

/-- An access to a slice. -/
def index (ms : List Float) (i : ℕ) : Except Fault Float :=
  match ms[i]? with
  | some x => .ok x
  | none => .error .indexOutOfRange

/-- `Statistic` of latencies in nanoseconds. -/
def statistic (latency : List ℤ) : Except Fault Stat := do
  let ms := (latency.map fun l => Float.ofInt l / 1000000.0).mergeSort fun a b => decide (a ≤ b)
  let sum := ms.foldl (· + ·) 0.0
  let size := ms.length
  let part (x : Float) := index ms (x * Float.ofNat size).toUInt64.toNat
  return ⟨ms, size, sum / Float.ofNat size, ← index ms 0, ← index ms (size - 1), ← part 0.5, ← part 0.95,
    ← part 0.99, ← part 0.999⟩

/-- Where `Run` is. -/
inductive Stage
  | begin
  /-- at the head of the loop that generates keys -/
  | loop
  /-- at `keys <- k` -/
  | sending (k : ℤ)
  /-- at `b.wait.Wait()` -/
  | waiting
  /-- at `b.db.Stop()` -/
  | closing
  /-- at `Statistic` -/
  | measuring
  | returned
  | panicked
  /-- `log.Fatalf` -/
  | exited
  deriving DecidableEq

/-- The process is over. -/
def Stage.over : Stage → Bool
  | .returned | .panicked | .exited => true
  | _ => false

/-- The key that `Run` is about to send. -/
def Stage.key : Stage → List ℤ
  | .sending k => [k]
  | _ => []

/-- A benchmark: `Run`, the number of keys it has generated, the channel `keys`, the workers, and the collector. -/
structure State where
  stage : Stage
  made : ℕ
  count : ℕ
  keys : List ℤ
  closed : Bool
  idle : ℕ
  writing : List ℤ
  wait : ℤ
  latencies : List ℤ
  latency : List ℤ
  requests : List ℤ
  deriving DecidableEq

/-- Before `Run` is called. -/
def start : State := ⟨.begin, 0, 0, [], false, 0, [], 0, [], [], []⟩

/-- What can happen in a benchmark. -/
inductive Move
  | begin
  /-- `Run` generates a key -/
  | generate
  | send
  /-- the timer has fired, or the loop is over -/
  | leave
  | waited
  | close
  | measure
  /-- a worker takes a key -/
  | take
  /-- `Write` returns in one of the workers -/
  | write (j : ℕ)
  /-- a worker finds the channel closed -/
  | quit
  /-- the collector takes a latency -/
  | collect
  deriving DecidableEq

/-- When it can happen. -/
def can (s : State) : Move → Prop
  | .begin => s.stage = .begin
  | .generate => s.stage = .loop ∧ (0 < c.T ∨ s.made < c.N)
  | .send => s.stage.key ≠ [] ∧ s.keys.length < c.concurrency
  | .leave => s.stage = .loop ∧ (0 < c.T ∨ c.N ≤ s.made)
  | .waited => s.stage = .waiting ∧ s.wait = 0
  | .close => s.stage = .closing
  | .measure => s.stage = .measuring
  | .take => s.stage.over = false ∧ 0 < s.idle ∧ s.keys ≠ []
  | .write j => s.stage.over = false ∧ j < s.writing.length
  | .quit => s.stage.over = false ∧ 0 < s.idle ∧ s.keys = [] ∧ s.closed = true
  | .collect => s.stage.over = false ∧ s.latencies ≠ []

instance (s : State) : (x : Move) → Decidable (can c s x)
  | .begin => inferInstanceAs (Decidable (s.stage = .begin))
  | .generate => inferInstanceAs (Decidable (_ ∧ (_ ∨ _)))
  | .send => inferInstanceAs (Decidable (_ ∧ _))
  | .leave => inferInstanceAs (Decidable (_ ∧ (_ ∨ _)))
  | .waited => inferInstanceAs (Decidable (_ ∧ _))
  | .close => inferInstanceAs (Decidable (s.stage = .closing))
  | .measure => inferInstanceAs (Decidable (s.stage = .measuring))
  | .take => inferInstanceAs (Decidable (_ ∧ _ ∧ _))
  | .write _ => inferInstanceAs (Decidable (_ ∧ _))
  | .quit => inferInstanceAs (Decidable (_ ∧ _ ∧ _ ∧ _))
  | .collect => inferInstanceAs (Decidable (_ ∧ _))

/-- The state afterwards. -/
def act (s : State) : Move → State
  | .begin =>
    -- `make` panics if the size of the channel is negative or too large
    if c.concurrency < 0 ∨ c.room < c.concurrency then { s with stage := .panicked }
    else { s with stage := .loop, idle := c.concurrency.toNat }
  | .generate =>
    -- `b.wait.Add(1)` panics if the counter overflows
    if s.wait = maxWait then { s with stage := .panicked }
    else
      match next c s.count with
      | none => { s with wait := s.wait + 1, stage := .exited }
      | some (k, count) => { s with wait := s.wait + 1, made := s.made + 1, count := count, stage := .sending k }
  | .send => { s with keys := s.keys ++ s.stage.key, stage := .loop }
  | .leave => { s with stage := if 0 < c.T then .closing else .waiting }
  | .waited => { s with stage := .closing }
  | .close => { s with closed := true, stage := .measuring }
  | .measure =>
    match statistic s.latency with
    | .ok _ => { s with stage := .returned }
    | .error _ => { s with stage := .panicked }
  | .take => { s with idle := s.idle - 1, keys := s.keys.tail, writing := s.writing ++ s.keys.head?.toList }
  | .write j =>
    { s with
      idle := s.idle + 1
      writing := s.writing.eraseIdx j
      requests := s.requests ++ s.writing[j]?.toList.flatMap (allPut c) }
  | .quit => { s with idle := s.idle - 1 }
  | .collect =>
    { s with
      latencies := s.latencies.tail
      latency := s.latency ++ s.latencies.head?.toList
      wait := s.wait - s.latencies.head?.toList.length }

/-- The benchmark as a transition system. -/
def lts : Lts State Move := ⟨can c, act c⟩

instance (s : State) : DecidablePred ((lts c).can s) := fun x => inferInstanceAs (Decidable (can c s x))

/-- The states that a benchmark can come to. -/
def Reachable (s : State) : Prop := (lts c).Path (fun _ => True) start s

variable {c} {s : State}

/-! ### No latency is ever measured -/

theorem statistic_nil : statistic [] = .error .indexOutOfRange := by
  simp [statistic, index, bind, Except.bind]

/-- Nothing is measured, every generated key is waited for, and a benchmark of `N` requests does not get past the
wait for them. -/
structure Unmeasured (c : Settings) (s : State) : Prop where
  latencies : s.latencies = []
  latency : s.latency = []
  wait : s.stage ≠ .exited → s.wait = s.made
  waiting : s.stage = .waiting → c.N ≤ s.made
  stuck : c.T ≤ 0 → 0 < c.N → s.stage ≠ .closing ∧ s.stage ≠ .measuring
  returned : s.stage ≠ .returned
  panicked : s.stage = .panicked →
    c.concurrency < 0 ∨ c.room < c.concurrency ∨ 0 < c.T ∨ c.N ≤ 0 ∨ maxWait < c.N

theorem unmeasured_start : Unmeasured c start := by
  constructor <;> simp [start]

/-- `Run` panics, where it can. -/
theorem Unmeasured.panic (h : Unmeasured c s) (hs : s.stage ≠ .exited)
    (hp : c.concurrency < 0 ∨ c.room < c.concurrency ∨ 0 < c.T ∨ c.N ≤ 0 ∨ maxWait < c.N) :
    Unmeasured c { s with stage := .panicked } := by
  refine ⟨h.latencies, h.latency, fun _ => h.wait hs, ?_, ?_, ?_, fun _ => hp⟩ <;> simp

/-- **One step.** -/
theorem Unmeasured.act (h : Unmeasured c s) {x : Move} (hc : can c s x) : Unmeasured c (Benchmark.act c s x) := by
  have hpanic := h.panic
  obtain ⟨hl, hl', hw, hwait, hstuck, hret, hpan⟩ := h
  cases x with
  | begin =>
    simp only [can] at hc
    simp only [Benchmark.act]
    split_ifs with hneg
    · exact hpanic (by simp [hc]) (hneg.imp_right Or.inl)
    · constructor <;> simp_all
  | generate =>
    obtain ⟨hs, hmore⟩ := hc
    have hm := hw (by simp [hs])
    simp only [Benchmark.act]
    split_ifs with hmax
    · exact hpanic (by simp [hs]) (Or.inr (Or.inr (by omega)))
    · split <;> constructor <;> simp_all
  | send =>
    obtain ⟨hkey, -⟩ := hc
    have hs : s.stage ≠ .exited := fun h => hkey (by rw [h]; rfl)
    constructor <;> simp_all [Benchmark.act]
  | leave =>
    obtain ⟨hs, hT⟩ := hc
    simp only [Benchmark.act]
    split_ifs with hpos <;> constructor <;> simp_all
  | waited =>
    obtain ⟨hs, h0⟩ := hc
    have hN := hwait hs
    have hm := hw (by simp [hs])
    constructor <;> simp_all [Benchmark.act]
  | close =>
    simp only [can] at hc
    constructor <;> simp_all [Benchmark.act]
  | measure =>
    simp only [can] at hc
    have hd : 0 < c.T ∨ c.N ≤ 0 := by
      by_contra hn
      exact (hstuck (by omega) (by omega)).2 hc
    have hact : Benchmark.act c s .measure = { s with stage := .panicked } := by
      simp only [Benchmark.act, hl', statistic_nil]
    rw [hact]
    exact hpanic (by simp [hc]) (Or.inr (Or.inr (by omega)))
  | take => exact ⟨hl, hl', hw, hwait, hstuck, hret, hpan⟩
  | write j => exact ⟨hl, hl', hw, hwait, hstuck, hret, hpan⟩
  | quit => exact ⟨hl, hl', hw, hwait, hstuck, hret, hpan⟩
  | collect => exact absurd hl hc.2

theorem unmeasured_of_reachable (h : Reachable c s) : Unmeasured c s :=
  h.keeps (fun _ _ _ h hc => h.act hc) unmeasured_start

/-- **`Run` never returns.**  In every run of its goroutines it waits, exits or panics, in `Statistic` at the latest, for
want of a latency; and if it is to make a number of requests, not more than the wait group can count, it never gets
past the wait for them. -/
theorem run_never_returns (h : Reachable c s) :
    s.stage ≠ .returned ∧ (c.T ≤ 0 → 0 < c.N → c.N ≤ maxWait → 0 ≤ c.concurrency → c.concurrency ≤ c.room →
      s.stage ≠ .closing ∧ s.stage ≠ .measuring ∧ s.stage ≠ .panicked) := by
  have hu := unmeasured_of_reachable h
  refine ⟨hu.returned, fun hT hN hmax hcon hroom => ⟨(hu.stuck hT hN).1, (hu.stuck hT hN).2, fun hp => ?_⟩⟩
  rcases hu.panicked hp with h | h | h | h | h <;> omega

/-- Two requests are made, and `Run` waits. -/
theorem run_never_returns_twoKeys : ∃ s, Reachable ⟨0, 2, 1, "uniform", 4, 0, "", 100⟩ s ∧ s.stage = .waiting ∧
    s.requests = [1, 2, 3, 4, 5, 6, 7, 8] ∧ s.stage ≠ .returned := by
  obtain ⟨s, hs, htest⟩ := (lts ⟨0, 2, 1, "uniform", 4, 0, "", 100⟩).exists_path (P := fun _ => True) (s := start)
    [.begin, .generate, .send, .take, .write 0, .generate, .send, .take, .write 0, .leave]
    (fun s => decide (s.stage = .waiting ∧ s.requests = [1, 2, 3, 4, 5, 6, 7, 8])) (by decide_cbv)
  obtain ⟨hwait, hreq⟩ := of_decide_eq_true htest
  exact ⟨s, hs, hwait, hreq, (run_never_returns hs).1⟩

/-! ### The ids of the requests -/

/-- The `i`-th key. -/
def keyAt (c : Settings) (i : ℕ) : ℤ := int64 (i * uint64 (c.n - c.byzNo) % 2 ^ 64 : ℕ)

/-- Every key that was generated was written, is in the hands of a worker, waits in the channel, or is about to be
sent. -/
structure Served (c : Settings) (s : State) : Prop where
  count : s.count = s.made * uint64 (c.n - c.byzNo) % 2 ^ 64
  keys : ∃ written, s.requests = written.flatMap (allPut c) ∧
    (written ++ (s.writing ++ (s.keys ++ s.stage.key))).Perm ((List.range s.made).map (keyAt c))

theorem served_start : Served c start := ⟨by simp [start], [], by simp [start, Stage.key]⟩

/-- A stage without a key to send. -/
theorem Served.goto (h : Served c s) (hk : s.stage.key = []) {t : State} (hkt : t.stage.key = [])
    (hcount : t.count = s.count) (hmade : t.made = s.made) (hw : t.writing = s.writing) (hkeys : t.keys = s.keys)
    (hr : t.requests = s.requests) : Served c t := by
  obtain ⟨hc, written, hreq, hperm⟩ := h
  rw [hk] at hperm
  exact ⟨by rw [hcount, hmade, hc], written, by rw [hr, hreq], by rw [hw, hkeys, hkt, hmade]; exact hperm⟩

/-- **One step.** -/
theorem Served.act (h : Served c s) {x : Move} (hc : can c s x) : Served c (Benchmark.act c s x) := by
  cases x with
  | begin =>
    have hk : s.stage.key = [] := by rw [show s.stage = .begin from hc]; rfl
    simp only [Benchmark.act]
    split_ifs <;> exact h.goto hk rfl rfl rfl rfl rfl rfl
  | generate =>
    have hk : s.stage.key = [] := by rw [hc.1]; rfl
    obtain ⟨hcount, written, hreq, hperm⟩ := h
    simp only [Benchmark.act, next]
    split_ifs with hmax hu
    · exact Served.goto ⟨hcount, written, hreq, hperm⟩ hk rfl rfl rfl rfl rfl rfl
    · refine ⟨?_, written, hreq, ?_⟩
      · show (s.count + _) % 2 ^ 64 = (s.made + 1) * _ % 2 ^ 64
        rw [hcount, Nat.mod_add_mod, Nat.succ_mul]
      · show (written ++ (s.writing ++ (s.keys ++ [int64 s.count]))).Perm _
        rw [hk, List.append_nil] at hperm
        rw [List.range_succ, List.map_append, List.map_singleton, keyAt, ← hcount, ← List.append_assoc,
          ← List.append_assoc, List.append_assoc written]
        exact hperm.append_right _
    · exact Served.goto ⟨hcount, written, hreq, hperm⟩ hk rfl rfl rfl rfl rfl rfl
  | send =>
    obtain ⟨hcount, written, hreq, hperm⟩ := h
    exact ⟨hcount, written, hreq, by simpa [Benchmark.act, Stage.key] using hperm⟩
  | leave =>
    refine h.goto (by rw [hc.1]; rfl) ?_ rfl rfl rfl rfl rfl
    simp only [Benchmark.act]
    split_ifs <;> rfl
  | waited => exact h.goto (by rw [hc.1]; rfl) rfl rfl rfl rfl rfl rfl
  | close => exact h.goto (by rw [show s.stage = .closing from hc]; rfl) rfl rfl rfl rfl rfl rfl
  | measure =>
    have hk : s.stage.key = [] := by rw [show s.stage = .measuring from hc]; rfl
    simp only [Benchmark.act]
    split <;> exact h.goto hk rfl rfl rfl rfl rfl rfl
  | take =>
    obtain ⟨-, -, hne⟩ := hc
    obtain ⟨hcount, written, hreq, hperm⟩ := h
    obtain ⟨k, ks, hkeys⟩ := List.exists_cons_of_ne_nil hne
    refine ⟨hcount, written, hreq, ?_⟩
    simpa [Benchmark.act, hkeys] using hperm
  | write j =>
    obtain ⟨-, hj⟩ := hc
    obtain ⟨hcount, written, hreq, hperm⟩ := h
    have hget : s.writing[j]? = some s.writing[j] := List.getElem?_eq_getElem hj
    refine ⟨hcount, written ++ [s.writing[j]], ?_, ?_⟩
    · simp [Benchmark.act, hget, hreq]
    · -- the key goes from the hands of the worker to those that were written
      have herase : ([s.writing[j]] ++ s.writing.eraseIdx j).Perm s.writing := List.getElem_cons_eraseIdx_perm hj
      simp only [Benchmark.act]
      rw [List.append_assoc, ← List.append_assoc [_]]
      exact ((herase.append_right _).append_left _).trans hperm
  | quit => exact ⟨h.count, h.keys⟩
  | collect => exact ⟨h.count, h.keys⟩

theorem served_of_reachable (h : Reachable c s) : Served c s :=
  h.keeps (fun _ _ _ h hc => h.act hc) served_start

/-! ### Ids that are distinct -/

theorem int64_emod (v : ℤ) : int64 v % 2 ^ 64 = v % 2 ^ 64 := by
  unfold int64
  split_ifs <;> omega

theorem int64_congr {a b : ℤ} (h : a % 2 ^ 64 = b % 2 ^ 64) : int64 a = int64 b := by
  rw [int64, int64, h]

/-- The ids of the requests for a key are those of the nodes, moved by the number of correct nodes from one key to
the next. -/
theorem allPut_keyAt (hbyz : c.byzNo ≤ c.n) (i : ℕ) :
    allPut c (keyAt c i) = (targets c).map fun id : ℕ => int64 (i * (c.n - c.byzNo) + id) := by
  refine List.map_congr_left fun id _ => int64_congr ?_
  have hstep : (uint64 (c.n - c.byzNo) : ℤ) = c.n - c.byzNo := uint64_of_nonneg (by omega)
  have hkey : keyAt c i % 2 ^ 64 = i * (c.n - c.byzNo) % 2 ^ 64 := by
    rw [keyAt, int64_emod]
    push_cast
    rw [Int.emod_emod, hstep]
  rw [Int.add_emod, hkey, ← Int.add_emod]

/-- No two nodes that the client writes to are further apart than keys are, if it leaves the Byzantine nodes out or
there are none. -/
theorem mem_targets (h : c.byzNo = 0 ∨ c.strategy = "silence") {id : ℕ} (hid : id ∈ targets c) :
    c.byzNo < id ∧ (id : ℤ) ≤ c.n := by
  rw [targets] at hid
  split_ifs at hid with hs
  · obtain ⟨hr, hb⟩ := List.mem_filter.1 hid
    rw [List.mem_range'_1] at hr
    simp only [decide_eq_true_eq] at hb
    omega
  · rw [List.mem_range'_1] at hid
    have h0 := h.resolve_right hs
    omega

/-- A number in a row of blocks of `d` determines the block and its place in it. -/
theorem eq_of_mul_add_eq {i j d a b lo : ℤ} (hi : lo < a) (ha : a ≤ lo + d) (hj : lo < b) (hb : b ≤ lo + d)
    (h : i * d + a = j * d + b) : i = j ∧ a = b := by
  have hle : ∀ {x y a b : ℤ}, lo < a → b ≤ lo + d → x * d + a = y * d + b → x ≤ y := by
    intro x y a b ha hb h
    by_contra hlt
    have hmul : (y + 1) * d ≤ x * d := mul_le_mul_of_nonneg_right (by omega) (by omega)
    rw [add_mul, one_mul] at hmul
    omega
  obtain rfl : i = j := le_antisymm (hle hi hb h) (hle hj ha h.symm)
  exact ⟨rfl, by omega⟩

/-- Two requests with the same id are the same request, until the keys wrap around. -/
theorem request_inj (hbyz : c.byzNo ≤ c.n) (h : c.byzNo = 0 ∨ c.strategy = "silence") {made i j id id' : ℕ}
    (hmade : made * (c.n - c.byzNo) ≤ 2 ^ 64) (hi : i < made) (hj : j < made) (hid : id ∈ targets c)
    (hid' : id' ∈ targets c)
    (heq : int64 (i * (c.n - c.byzNo) + id) = int64 (j * (c.n - c.byzNo) + id')) : i = j ∧ id = id' := by
  obtain ⟨hlo, hhi⟩ := mem_targets h hid
  obtain ⟨hlo', hhi'⟩ := mem_targets h hid'
  -- both sums are in one interval of length `2 ^ 64`
  have hrange : ∀ {k : ℕ}, k < made → 0 ≤ k * ((c.n : ℤ) - c.byzNo) ∧
      k * ((c.n : ℤ) - c.byzNo) + (c.n - c.byzNo) ≤ 2 ^ 64 := by
    intro k hk
    have hmul : ((k : ℤ) + 1) * (c.n - c.byzNo) ≤ made * (c.n - c.byzNo) :=
      mul_le_mul_of_nonneg_right (by omega) (by omega)
    rw [add_mul, one_mul] at hmul
    exact ⟨mul_nonneg (by omega) (by omega), hmul.trans hmade⟩
  have hri := hrange hi
  have hrj := hrange hj
  have hmod : (i * (c.n - c.byzNo) + id) % 2 ^ 64 = (j * (c.n - c.byzNo) + id') % (2 ^ 64 : ℤ) := by
    rw [← int64_emod, heq, int64_emod]
  have hsum : i * ((c.n : ℤ) - c.byzNo) + id = j * (c.n - c.byzNo) + id' := by omega
  obtain ⟨hij, hids⟩ := eq_of_mul_add_eq hlo (by omega) hlo' (by omega) hsum
  exact ⟨by exact_mod_cast hij, by exact_mod_cast hids⟩

/-- **No id twice**, if the client writes to the correct nodes only. -/
theorem nodup_requests (hbyz : c.byzNo ≤ c.n) (h : c.byzNo = 0 ∨ c.strategy = "silence") (hs : Reachable c s)
    (hmade : s.made * (c.n - c.byzNo) ≤ (2 ^ 64 : ℤ)) : s.requests.Nodup := by
  obtain ⟨-, written, hreq, hperm⟩ := served_of_reachable hs
  have hall : (((List.range s.made).map (keyAt c)).flatMap (allPut c)).Nodup := by
    rw [List.flatMap_map, List.nodup_flatMap]
    refine ⟨fun i hi => ?_, List.nodup_range.pairwise_of_forall_ne fun i hi j hj hne => ?_⟩
    · rw [allPut_keyAt hbyz]
      refine List.Nodup.map_on (fun id hid id' hid' heq => ?_) ?_
      · exact (request_inj hbyz h hmade (List.mem_range.1 hi) (List.mem_range.1 hi) hid hid' heq).2
      · unfold targets
        split_ifs
        · exact (List.nodup_range' 1).filter _
        · exact List.nodup_range' 1
    · rw [Function.onFun, allPut_keyAt hbyz, allPut_keyAt hbyz]
      intro x hx hx'
      obtain ⟨id, hid, rfl⟩ := List.mem_map.1 hx
      obtain ⟨id', hid', heq⟩ := List.mem_map.1 hx'
      exact hne (request_inj hbyz h hmade (List.mem_range.1 hi) (List.mem_range.1 hj) hid hid' heq.symm).1
  rw [← (hperm.flatMap_right _).nodup_iff, List.flatMap_append] at hall
  rw [hreq]
  exact hall.of_append_left

/-- A run in which two keys are written. -/
theorem two_keys (hdist : c.distribution = "uniform") (hcon : 1 ≤ c.concurrency) (hroom : c.concurrency ≤ c.room)
    (hN : 0 < c.T ∨ 2 ≤ c.N) :
    ∃ s, Reachable c s ∧ s.made = 2 ∧ s.requests = allPut c (keyAt c 0) ++ allPut c (keyAt c 1) := by
  obtain ⟨s, hs, htest⟩ := (lts c).exists_path (P := fun _ => True) (s := start)
    [.begin, .generate, .send, .take, .write 0, .generate, .send, .take, .write 0]
    (fun s => decide (s.made = 2 ∧ s.requests = allPut c (keyAt c 0) ++ allPut c (keyAt c 1))) (by
      have h1 : ¬ (c.concurrency < 0 ∨ c.room < c.concurrency) := by omega
      have h2 : 0 < c.T ∨ 0 < c.N := by omega
      have h3 : 0 < c.T ∨ 1 < c.N := by omega
      have h4 : 0 < c.concurrency := by omega
      simp [Lts.exec, lts, can, act, start, next, hdist, h1, h2, h3, h4, maxWait, Stage.key, Stage.over, keyAt])
  exact ⟨s, hs, of_decide_eq_true htest⟩

/-- **The ids of the requests are distinct, in every run, exactly if there are no Byzantine nodes or the client leaves
them out.**  Keys are as far apart as there are correct nodes, but the client writes a key to the Byzantine ones too,
unless they are silent. -/
theorem request_ids_distinct_iff (hdist : c.distribution = "uniform") (hcon : 1 ≤ c.concurrency)
    (hroom : c.concurrency ≤ c.room) (hN : 0 < c.T ∨ 2 ≤ c.N) (h0 : 0 ≤ c.byzNo) (hbyz : c.byzNo ≤ c.n)
    (hn : c.n ≤ 2 ^ 63) :
    (∀ s, Reachable c s → s.made * (c.n - c.byzNo) ≤ (2 ^ 64 : ℤ) → s.requests.Nodup) ↔
      c.byzNo = 0 ∨ c.strategy = "silence" := by
  constructor
  · intro hall
    by_contra hne
    obtain ⟨hpos, hstrat⟩ := not_or.1 hne
    obtain ⟨s, hs, hmade, hreq⟩ := two_keys hdist hcon hroom hN
    have hnodup := hall s hs (by rw [hmade]; push_cast; omega)
    rw [hreq, allPut_keyAt hbyz, allPut_keyAt hbyz, List.nodup_append'] at hnodup
    -- the first key at node `n - byzNo + 1` and the second one at node 1 have the same id
    have hmem : ∀ id, 1 ≤ id → id ≤ c.n → id ∈ targets c := by
      intro id h1 hid
      rw [targets, if_neg hstrat, List.mem_range'_1]
      omega
    have hnext : (((c.n - c.byzNo).toNat + 1 : ℕ) : ℤ) = c.n - c.byzNo + 1 := by omega
    refine hnodup.2.2 (List.mem_map_of_mem (hmem ((c.n - c.byzNo).toNat + 1) (by omega) (by omega))) ?_
    rw [hnext]
    exact List.mem_map.2 ⟨1, hmem 1 le_rfl (by omega), by push_cast; ring_nf⟩
  · exact fun h s hs hmade => nodup_requests hbyz h hs hmade

/-- One of four nodes is Byzantine: two requests have the id 4. -/
theorem request_ids_distinct_iff_oneByzantine :
    ¬ (∀ s, Reachable ⟨0, 2, 1, "uniform", 4, 1, "fork", 100⟩ s → s.made * (4 - 1) ≤ (2 ^ 64 : ℤ) →
      s.requests.Nodup) := by
  intro hall
  have h := (request_ids_distinct_iff (c := ⟨0, 2, 1, "uniform", 4, 1, "fork", 100⟩) rfl (by decide) (by decide)
    (by decide) (by decide) (by decide) (by decide)).1 hall
  exact absurd h (by decide)

end Benchmark

end Bamboo
