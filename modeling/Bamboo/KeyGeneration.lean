import Bamboo.Crypto

/-!
# The keys of the replicas

`SetKeys` and `GenerateKey` of `crypto/sign.go`.  The randomness that `ecdsa.GenerateKey` asks for comes
from a `StaticRand`, whose `Read` reports as many bytes as the number of its node and writes none.

* `staticRand`, `readFull`: the reader, and the loop of `io.ReadFull` around it;
* `generateKey`, `setKeys`: the keys, for any function of the bytes read;
* `node_newNodeID`: the number of a node is found again in its id;
* `keys_coincide`: **all replicas have the same key**.
-/

namespace Bamboo

/-- An `io.Reader` that does not fail: given the contents of a slice, the number of bytes it reports and
the contents it leaves in the slice. -/
abbrev Reader := List UInt8 → ℤ × List UInt8

/-- `StaticRand.Read`. -/
def staticRand (id : NodeID) : Reader := fun x => (node id, x)

/-- The loop of `io.ReadFull`, with `n` bytes reported so far.  A reader without a state that reports
nothing is asked the same for ever, so that the loop has ended or never ends after as many rounds as the
buffer has bytes. -/
def readLoop (r : Reader) : ℕ → ℤ → List UInt8 → Except Fault (List UInt8)
  | 0, _, _ => .error .diverge
  | fuel + 1, n, buf =>
    if n < buf.length then
      if n < 0 then .error .indexOutOfRange  -- buf[n:]
      else
        let (nn, rest) := r (buf.drop n.toNat)
        readLoop r fuel (n + nn) (buf.take n.toNat ++ rest)
    else .ok buf

/-- `io.ReadFull` into a zeroed buffer of the given length. -/
def readFull (r : Reader) (len : ℕ) : Except Fault (List UInt8) :=
  readLoop r (len + 1) 0 (List.replicate len 0)

section Keys

variable {κ : Type} (gen : List UInt8 → κ) (len : ℕ)

/-- `GenerateKey`, where `ecdsa.GenerateKey` reads `len` bytes and makes the key from them: a key, no key
or an error. -/
def generateKey (signer : String) (id : NodeID) : Except Fault (Except String (Option κ)) :=
  if signer = "ECDSA_P256" then do
    let bytes ← readFull (staticRand id) len
    return .ok (some (gen bytes))
  else if signer = "ECDSA_SECp256k1" then .ok (.ok none)
  else if signer = "BLS_BLS12381" then .ok (.ok none)
  else .ok (.error "Invalid signature scheme!")

/-- The loop of `SetKeys`, with the `keys` of the first nodes made and `k` nodes to go. -/
def setKeysLoop (signer : String) : ℕ → List κ → Except Fault (Except String (List κ))
  | 0, keys => .ok (.ok keys)
  | k + 1, keys => do
    match ← generateKey gen len signer (newNodeID (keys.length + 1)) with
    | .error err => return .error err
    | .ok none => throw .nilDereference  -- keys[i].PublicKey()
    | .ok (some key) => setKeysLoop signer k (keys ++ [key])

/-- `SetKeys` for `n` nodes: the private keys. -/
def setKeys (signer : String) (n : ℕ) : Except Fault (Except String (List κ)) :=
  setKeysLoop gen len signer n []

end Keys

/-! ### The number of a node -/

/-- The digits of a number are read back. -/
theorem foldl_digits (cs : List Char) (hcs : ∀ c ∈ cs, c.isDigit = true) (k : ℕ) :
    cs.foldl (fun acc ch => acc.bind fun k =>
      if ch.isDigit then some (10 * k + (ch.toNat - '0'.toNat)) else none) (some k) =
      some (Nat.ofDigitChars 10 cs k) := by
  induction cs generalizing k with
  | nil => rfl
  | cons c cs ih =>
    have hc : c.isDigit = true := hcs c List.mem_cons_self
    rw [List.foldl_cons, Option.bind_some, if_pos hc, ih fun c hm => hcs c (List.mem_cons_of_mem _ hm),
      Nat.ofDigitChars_cons]

theorem parseUint_toString {k : ℕ} (hk : k < 2 ^ 64) : parseUint (toString k) = some k := by
  have hlist : (toString k).toList = Nat.toDigits 10 k := Nat.toList_repr
  have hdigits : ∀ c ∈ Nat.toDigits 10 k, c.isDigit = true := fun c hc =>
    Nat.isDigit_of_mem_toDigits (by omega) (by omega) hc
  unfold parseUint
  rw [hlist]
  split
  · next he => exact absurd he Nat.toDigits_ne_nil
  · rw [foldl_digits _ hdigits, Nat.ofDigitChars_toDigits (by omega) (by omega)]
    simpa [Option.filter] using hk

/-- The number of a node is found again in its id. -/
theorem node_newNodeID {k : ℤ} (h0 : 0 ≤ k) (hk : k < 2 ^ 63) : node (newNodeID k) = k := by
  unfold node newNodeID
  rw [parseUint_toString (by omega)]
  show (if k.natAbs < 2 ^ 63 then (k.natAbs : ℤ) else _) = k
  rw [if_pos (by omega), Int.natAbs_of_nonneg h0]

/-! ### What is read -/

/-- A reader that reports the same positive number each time and writes nothing: the buffer stays as it
is. -/
theorem readLoop_idle {k : ℤ} (hk : 1 ≤ k) {fuel : ℕ} {n : ℤ} (buf : List UInt8) (h0 : 0 ≤ n)
    (hfuel : (buf.length : ℤ) ≤ n + fuel) : readLoop (fun x => (k, x)) (fuel + 1) n buf = .ok buf := by
  induction fuel generalizing n with
  | zero =>
    unfold readLoop
    rw [if_neg (by omega)]
  | succ fuel ih =>
    unfold readLoop
    by_cases hn : n < buf.length
    · rw [if_pos hn, if_neg (by omega)]
      show readLoop _ (fuel + 1) (n + k) (buf.take n.toNat ++ buf.drop n.toNat) = _
      rw [List.take_append_drop]
      apply ih
      · omega
      · omega
    · rw [if_neg hn]

/-- What every node reads: zeros. -/
theorem readFull_staticRand {k : ℤ} (h1 : 1 ≤ k) (hk : k < 2 ^ 63) (len : ℕ) :
    readFull (staticRand (newNodeID k)) len = .ok (List.replicate len 0) := by
  unfold readFull staticRand
  rw [node_newNodeID (by omega) hk]
  apply readLoop_idle h1
  · omega
  · simp

section Keys

variable {κ : Type} (gen : List UInt8 → κ) (len : ℕ)

theorem generateKey_eq {k : ℤ} (h1 : 1 ≤ k) (hk : k < 2 ^ 63) :
    generateKey gen len "ECDSA_P256" (newNodeID k) = .ok (.ok (some (gen (List.replicate len 0)))) := by
  unfold generateKey
  rw [if_pos rfl, readFull_staticRand h1 hk]
  rfl

/-- The loop adds the same key over and over. -/
theorem setKeysLoop_eq {k : ℕ} {keys : List κ} (h : keys.length + k < 2 ^ 63) :
    setKeysLoop gen len "ECDSA_P256" k keys =
      .ok (.ok (keys ++ List.replicate k (gen (List.replicate len 0)))) := by
  induction k generalizing keys with
  | zero =>
    unfold setKeysLoop
    rw [List.replicate_zero, List.append_nil]
  | succ k ih =>
    unfold setKeysLoop
    rw [generateKey_eq gen len (by omega) (by omega)]
    show setKeysLoop gen len "ECDSA_P256" k (keys ++ [gen (List.replicate len 0)]) = _
    rw [ih (by simp; omega), List.append_assoc]
    rfl

/-- **All replicas have the same key.**  For any number `N` of nodes (an `int`), whatever `ecdsa.GenerateKey`
makes of the bytes it reads and however many it reads, two nodes read the same bytes and have the same
key. -/
theorem keys_coincide (N : ℕ) (hN : N < 2 ^ 63) (i j : ℕ) (hi : 1 ≤ i ∧ i ≤ N) (hj : 1 ≤ j ∧ j ≤ N) :
    readFull (staticRand (newNodeID i)) len = readFull (staticRand (newNodeID j)) len ∧
      ∃ keys, setKeys gen len "ECDSA_P256" N = .ok (.ok keys) ∧ keys.length = N ∧
        keys[i - 1]? = keys[j - 1]? ∧ keys[i - 1]? ≠ none := by
  constructor
  · rw [readFull_staticRand (by omega) (by omega), readFull_staticRand (by omega) (by omega)]
  · refine ⟨List.replicate N (gen (List.replicate len 0)), ?_, List.length_replicate, ?_, ?_⟩
    · exact setKeysLoop_eq gen len (by simpa using hN)
    · rw [List.getElem?_replicate_of_lt (by omega), List.getElem?_replicate_of_lt (by omega)]
    · rw [List.getElem?_replicate_of_lt (by omega)]
      exact Option.some_ne_none _

/-- Nodes 1 and 2 of four, with keys that are the bytes themselves. -/
theorem keys_coincide_fourNodes :
    (1 ≠ 2) ∧ ∃ keys, setKeys id 40 "ECDSA_P256" 4 = .ok (.ok keys) ∧ keys.length = 4 ∧
      keys[1 - 1]? = keys[2 - 1]? ∧ keys[1 - 1]? ≠ none :=
  ⟨by decide, (keys_coincide id 40 4 (by decide) 1 2 (by decide) (by decide)).2⟩

/-- **Two nodes, one key**, when the key is the bytes read. -/
theorem two_nodes_one_key :
    setKeys id 2 "ECDSA_P256" 2 = .ok (.ok [[0, 0], [0, 0]]) := by
  decide_cbv

end Keys

end Bamboo
