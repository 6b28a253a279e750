/-
# The key exchange of the encrypted handshake

The Diffie-Hellman exchange of `bt/pe_crypto.rs`: `generate_public_key`,
`send_local_public_key` and `compute_secret`, with the big integers of `num_bigint` as
natural numbers.

A public key is sent as the bytes of `to_bytes_be`, which drops leading zero bytes,
followed by a random pad, and is read back from the first 96 bytes received.  Both sides
therefore agree on `g ^ (a b) mod P` if and only if both public keys take 96 bytes
(`agrees_iff`); a shorter key lets pad bytes into the window, or leaves fewer than 96
bytes altogether.
-/
import Dorodoro.Bytes
import Dorodoro.CryptoHandshake
import Mathlib.Data.Nat.Log

open CryptoHandshake

namespace KeyExchange

/-! ## Big integers -/

/-- `BigUint::modpow`. -/
def modpow (base exponent modulus : ℕ) : ℕ := base ^ exponent % modulus

/-- `BigUint::to_bytes_be`: no leading zero byte, and one byte for zero. -/
def toBytesBe (n : ℕ) : Bytes := toBeBytes (Nat.log 256 n + 1) n

/-- `BigUint::from_bytes_be`. -/
def fromBytesBe (bytes : Bytes) : ℕ := fromBeSlice bytes.length bytes

@[simp] theorem length_toBytesBe (n : ℕ) : (toBytesBe n).length = Nat.log 256 n + 1 :=
  length_toBeBytes _ _

@[simp] theorem fromBytesBe_toBytesBe (n : ℕ) : fromBytesBe (toBytesBe n) = n := by
  rw [fromBytesBe, length_toBytesBe]
  exact fromBeSlice_toBeBytes _ _ (Nat.lt_pow_succ_log_self (by decide) n)

/-- A number takes more than `k` bytes when it reaches `256 ^ k`. -/
theorem lt_length_toBytesBe {k n : ℕ} (hk : k ≠ 0) : k < (toBytesBe n).length ↔ 256 ^ k ≤ n := by
  rw [length_toBytesBe, Nat.lt_succ_iff]
  by_cases hn : n = 0
  · subst hn
    simp [hk]
  · exact Nat.le_log_iff_pow_le (by decide) hn

/-! ## The exchange -/

/-- `PRIME`. -/
def prime : ℕ := 0xFFFFFFFFFFFFFFFFC90FDAA22168C234C4C6628B80DC1CD129024E088A67CC74020BBEA63B139B22514A08798E3404DDEF9519B3CD3A431B302B0A6DF25F14374FE1356D6D51C245E485B576625E7EC6F44C42E9A63A36210000000000090563

/-- `G`. -/
def g : ℕ := 2

/-- `generate_public_key`. -/
def generatePublicKey (lprk : ℕ) : ℕ := modpow g lprk prime

/-- `send_local_public_key`, with the pad `generate_pad` returned. -/
def sendLocalPublicKey (lpuk : ℕ) (pad : Bytes) : Bytes := toBytesBe lpuk ++ pad

/-- `compute_secret`; a short slice is a panic. -/
def computeSecret (data : Bytes) (lprk : ℕ) : Option ℕ :=
  if data.length < shareKeyLen then none
  else some (modpow (fromBytesBe (data.take shareKeyLen)) lprk prime)

/-- `Agrees a b`: with private keys `a` and `b` and whatever the pads, both sides send at
least 96 bytes and compute `g ^ (a b) mod P` from the first 96 bytes they receive. -/
def Agrees (a b : ℕ) : Prop :=
  ∀ padA padB : Bytes, padA.length ≤ padMaxLen → padB.length ≤ padMaxLen →
    shareKeyLen ≤ (sendLocalPublicKey (generatePublicKey a) padA).length ∧
    shareKeyLen ≤ (sendLocalPublicKey (generatePublicKey b) padB).length ∧
    computeSecret ((sendLocalPublicKey (generatePublicKey b) padB).take shareKeyLen) a =
      some (g ^ (a * b) % prime) ∧
    computeSecret ((sendLocalPublicKey (generatePublicKey a) padA).take shareKeyLen) b =
      some (g ^ (a * b) % prime)

theorem generatePublicKey_lt (lprk : ℕ) : generatePublicKey lprk < 256 ^ shareKeyLen :=
  lt_trans (Nat.mod_lt _ (by decide +kernel)) (by decide +kernel)

/-- A public key takes at most 96 bytes. -/
theorem length_publicKey_le (lprk : ℕ) :
    (toBytesBe (generatePublicKey lprk)).length ≤ shareKeyLen := by
  by_contra h
  have hle := (lt_length_toBytesBe (by decide)).mp (Nat.lt_of_not_le h)
  exact absurd (generatePublicKey_lt lprk) (not_lt.mpr hle)

/-- The secret computed from a public key of 96 bytes. -/
theorem computeSecret_sendLocalPublicKey {a b : ℕ} (hb : 256 ^ 95 ≤ generatePublicKey b)
    (pad : Bytes) :
    computeSecret ((sendLocalPublicKey (generatePublicKey b) pad).take shareKeyLen) a =
      some (g ^ (b * a) % prime) := by
  have hlen : (toBytesBe (generatePublicKey b)).length = shareKeyLen :=
    le_antisymm (length_publicKey_le b) ((lt_length_toBytesBe (by decide)).mpr hb)
  have hwindow : (sendLocalPublicKey (generatePublicKey b) pad).take shareKeyLen =
      toBytesBe (generatePublicKey b) := List.take_left' hlen
  have hall : (toBytesBe (generatePublicKey b)).take shareKeyLen =
      toBytesBe (generatePublicKey b) := List.take_of_length_le hlen.le
  rw [hwindow, computeSecret, hlen, if_neg (lt_irrefl _), hall, fromBytesBe_toBytesBe,
    generatePublicKey, modpow, modpow, ← Nat.pow_mod, ← pow_mul]

/-- **Key agreement.**  Whatever the pads, both sides send at least 96 bytes and obtain
the same secret if and only if neither public key has a leading zero byte. -/
theorem agrees_iff (a b : ℕ) :
    Agrees a b ↔ 256 ^ 95 ≤ g ^ a % prime ∧ 256 ^ 95 ≤ g ^ b % prime := by
  constructor
  · intro h
    obtain ⟨ha, hb, -⟩ := h [] [] (by decide) (by decide)
    rw [sendLocalPublicKey, List.append_nil] at ha hb
    exact ⟨(lt_length_toBytesBe (by decide)).mp ha, (lt_length_toBytesBe (by decide)).mp hb⟩
  · rintro ⟨ha, hb⟩ padA padB - -
    have hla : shareKeyLen ≤ (toBytesBe (generatePublicKey a)).length :=
      (lt_length_toBytesBe (by decide)).mpr ha
    have hlb : shareKeyLen ≤ (toBytesBe (generatePublicKey b)).length :=
      (lt_length_toBytesBe (by decide)).mpr hb
    refine ⟨?_, ?_, ?_, computeSecret_sendLocalPublicKey ha padA⟩
    · rw [sendLocalPublicKey, List.length_append]
      omega
    · rw [sendLocalPublicKey, List.length_append]
      omega
    · rw [Nat.mul_comm]
      exact computeSecret_sendLocalPublicKey hb padB

/-- The private key 1 has the one-byte public key 2.  Without a pad one byte is sent;
with a pad of zeros the other side, whose private key is 767, takes `2 ^ 761` for the
public key and computes another secret. -/
theorem not_agrees_one :
    ¬ Agrees 1 767 ∧
      computeSecret ((sendLocalPublicKey (generatePublicKey 1) (List.replicate 512 0)).take
        shareKeyLen) 767 ≠ some (g ^ (1 * 767) % prime) := by
  have hkey : generatePublicKey 1 = 2 := by decide +kernel
  have hbytes : toBytesBe 2 = [2] := by
    rw [toBytesBe, Nat.log_of_lt (by decide)]
    rfl
  constructor
  · intro h
    obtain ⟨hshort, -⟩ := h [] [] (by decide) (by decide)
    rw [sendLocalPublicKey, hkey, hbytes] at hshort
    exact absurd hshort (by decide)
  · rw [sendLocalPublicKey, hkey, hbytes]
    decide +kernel

end KeyExchange
